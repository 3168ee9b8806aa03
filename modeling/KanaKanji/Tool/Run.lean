import KanaKanji.Conversion.Converter
import KanaKanji.Settings.Toml
import KanaKanji.Tool.Arguments
import KanaKanji.Tool.Listing
import KanaKanji.WordList

/-!
# Running the dictionary tool

What a command line does: its exit code, what it prints, and what it asks of files. A command line
that is refused has exit code 2, a command that fails has exit code 1.
-/

set_option autoImplicit false

namespace KanaKanji.Tool

/-- What a run comes to. -/
structure Outcome where
  code : Nat := 0
  output : String := ""
  messages : String := ""
  deriving DecidableEq, Repr

/-- A run that prints lines. -/
def Outcome.printed (lines : List String) : Outcome := { output := ofLines lines }

/-- A run that fails, with a message. -/
def Outcome.failed (message : String) : Outcome := { code := 1, messages := ofLines [message] }

/-- A run of which a command line is refused. -/
def Outcome.refused : Outcome := { code := 2 }

/-- A run with messages in front of its own. -/
def Outcome.after (progress : List String) (o : Outcome) : Outcome :=
  { o with messages := ofLines progress ++ o.messages }

/-- The run of what may fail with a message. -/
def Outcome.of : Except String Outcome → Outcome
  | .ok o => o
  | .error message => .failed message

section

variable {m : Type → Type} [Monad m] [FileAccess m]

/-! ### Data files -/

/-- Runs a command on a data file. -/
def withDataFile (path : String) (command : DataFile → Except String Outcome) : m Outcome := do
  match ← DataFile.openFile path with
  | .ok file => return Outcome.of (command file)
  | .error e => return .failed s!"Error opening {path}: {e.message}"

/-- Runs a command on the lexicon in a data file. -/
def withLexicon (path : String) (command : Lexicon → Except String Outcome) : m Outcome :=
  withDataFile path fun file ↦
    match file.lexicon with
    | .ok lexicon => command lexicon
    | .error e => .error s!"Error opening dictionary: {e.message}"

/-- Writes a data file with the words of a word list. -/
def build (input output : String) (alignment : Nat) : m Outcome := do
  let reading := [s!"Reading {input}..."]
  match ← FileAccess.readText input with
  | .error e => return (Outcome.failed s!"Error reading {input}: {e.message}").after reading
  | .ok text =>
    let draft := WordList.addTo .empty text
    let tally := WordList.tally text
    let progress := reading ++
      [s!"  {tally.entries} entries (skipped {tally.skipped} of {tally.lines} lines)",
        s!"Building {draft.numReadings} readings ({draft.numWords} entries)..."]
    match draft.writeTo (.empty DataSet.defaultMagic) alignment with
    | (_, .error e) =>
      return (Outcome.failed s!"Error building dictionary: {e.message}").after progress
    | (dataSet, .ok ()) =>
      let bytes := dataSet.toBytes
      match ← FileAccess.writeBytes output bytes with
      | .error e => return (Outcome.failed s!"Error creating {output}: {e.message}").after progress
      | .ok () =>
        let size := kilobytes bytes.length
        return { messages := ofLines (progress ++ [s!"Wrote {output} ({size} KB)"]) }

/-! ### Conversion -/

/-- Converts kana, or predicts its completions, and lists the segments with their candidates. -/
def convertKana (settings : Settings) (lexicon : Lexicon) (kana : String) (shown : Nat)
    (modifierInsensitive prediction : Bool) : Except String Outcome :=
  let converter := Converter.ofDictionary lexicon.toDictionary
  let request : ConversionRequest :=
    { client := { modifierInsensitiveConversion := modifierInsensitive }
      config := settings.conversion }
  let start := if prediction then converter.startPrediction else converter.startConversion
  match start request (Segments.ofSettings settings.segments) kana with
  | (_, .error e) => .error s!"Error: {e.message}"
  | (segments, .ok ()) =>
    let listed := segments.conversionSegments.map fun s ↦ (s.key, s.candidates.map Candidate.value)
    let best := Text.joined (listed.filterMap (·.2.head?))
    .ok (.printed (best :: "" :: segmentLines shown listed))

/-! ### Settings -/

/-- The settings in a file. -/
def loadSettings (path : String) : m (Except EngineError Settings) := do
  match ← FileAccess.readText path with
  | .error e => return .error (.file e)
  | .ok text => return (Settings.ofToml text).mapError .settings

/-- Says whether a file holds settings. -/
def validateSettings (path : String) : m Outcome := do
  match ← FileAccess.readText path with
  | .error e => return .failed s!"Error reading {path}: {e.message}"
  | .ok text =>
    match Settings.ofToml text with
    | .error e => return .failed s!"Error: {e.message}"
    | .ok s =>
      return .printed [s!"OK: segments.max_history_segments={s.segments.maxHistorySegments}, " ++
        s!"segments.max_conversion_candidates={s.segments.maxConversionCandidates}, " ++
        s!"data_set.default_alignment={s.dataSet.defaultAlignment}"]

/-! ### Command lines -/

/-- Runs a command under settings. -/
def runCommand (settings : Settings) : Command → m Outcome
  | .build input output alignment =>
    build input output (alignment.getD settings.dataSet.defaultAlignment)
  | .info path => withDataFile path fun file ↦ .ok (.printed (infoLines path file))
  | .verify path => withDataFile path fun file ↦
      .ok (.printed [s!"OK: {path} ({file.size} bytes, {file.entries.length} regions)"])
  | .lookup path reading => withLexicon path fun lexicon ↦
      .ok (.printed (lookupLines reading (lexicon.lookup reading)))
  | .fronts path query modifierInsensitive => withLexicon path fun lexicon ↦
      let search :=
        if modifierInsensitive then lexicon.modifierInsensitiveSearch
        else lexicon.commonPrefixSearch
      .ok (.printed (frontLines query (search query)))
  | .predict path start limit => withLexicon path fun lexicon ↦
      .ok (.printed (completionLines start
        (lexicon.toDictionary.predictRanked start limit predictionScanLimit)))
  | .convert path kana shown modifierInsensitive prediction => withLexicon path fun lexicon ↦
      convertKana settings lexicon kana shown modifierInsensitive prediction
  | .exportSettings => return { output := Settings.defaultToml }
  | .validateSettings path => validateSettings path

/-- Runs what a command line asks for. -/
def invoke (i : Invocation) : m Outcome := do
  if let some directory := i.traceDirectory then
    if let .error e := ← FileAccess.makeDirectories directory then
      return .failed s!"Error creating trace dir {directory}: {e.message}"
  match i.settings with
  | none => runCommand {} i.command
  | some path =>
    match ← loadSettings path with
    | .ok settings => runCommand settings i.command
    | .error e => return .failed s!"Error loading settings {path}: {e.message}"

/-- Runs a command line. -/
def run (args : List String) : m Outcome :=
  match Invocation.parse? args with
  | some i => invoke i
  | none => return .refused

end

end KanaKanji.Tool
