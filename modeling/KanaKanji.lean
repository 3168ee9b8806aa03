import KanaKanji.Files.Tree
import KanaKanji.Louds.Expansion
import KanaKanji.Main
import KanaKanji.Proofs.Conversion.Adjustment
import KanaKanji.Proofs.DataSet.Offers
import KanaKanji.Proofs.DataSet.Corruption
import KanaKanji.Proofs.Lexicon.RoundTrip
import KanaKanji.Proofs.Louds.RoundTrip
import KanaKanji.Proofs.Louds.Numbering
import KanaKanji.Proofs.Conversion.Conservation
import KanaKanji.Proofs.Conversion.AppendOnly
import KanaKanji.Proofs.Louds.Bounds
import KanaKanji.Proofs.DataSet.Bounds
import KanaKanji.Proofs.Lexicon.Bounds
import KanaKanji.Proofs.Louds.SubtreeWalk
import KanaKanji.Proofs.Louds.ExpandedSearch
import KanaKanji.Proofs.Louds.ExpansionTable
import KanaKanji.Proofs.Louds.SharedBuffer
import KanaKanji.Proofs.Lexicon.StoredReadings
import KanaKanji.Proofs.Conversion.GreedySplit
import KanaKanji.Proofs.Lexicon.InterruptedWrite
import KanaKanji.Proofs.Conversion.Submission
import KanaKanji.Proofs.Conversion.Resizing
import KanaKanji.Proofs.Conversion.CandidateRanking
import KanaKanji.Proofs.Conversion.Recutting
import KanaKanji.Proofs.Conversion.Reordering
import KanaKanji.Proofs.Louds.MatchCursor
import KanaKanji.Proofs.Lexicon.AgreeingSearches
import KanaKanji.Proofs.Prediction
import KanaKanji.Proofs.Bits.BlockDirectory
import KanaKanji.Proofs.Louds.InverseLinks
import KanaKanji.Proofs.Louds.CanonicalForm
import KanaKanji.Proofs.Conversion.PartialCommit
import KanaKanji.Proofs.Conversion.TokenHistory
import KanaKanji.Proofs.Conversion.ScriptForms
import KanaKanji.Proofs.WordLists
import KanaKanji.Proofs.Bits.StreamCalls
import KanaKanji.Proofs.Louds.RangeWalk
import KanaKanji.Proofs.Louds.BlockTrie
