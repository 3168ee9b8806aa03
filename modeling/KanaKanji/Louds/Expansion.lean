import KanaKanji.Louds.Search

/-!
# Searching a trie with expanded bytes

A byte of a query may stand for further labels besides itself (`Expansion`). Two searches take every
label that a byte stands for, and report what they find to a visitor: a function that takes its own
state and a match, and answers with a new state and whether to go on, to leave out the keys below
the match, or to stop.
-/

set_option autoImplicit false

namespace KanaKanji.Louds

/-! ### Expanded bytes -/

/-- The pairs of a byte and a label that it matches besides itself. -/
structure Expansion where
  pairs : List (UInt8 × UInt8) := []
  deriving DecidableEq, Repr

namespace Expansion

/-- The table in which each byte stands for itself only. -/
def empty : Expansion := {}

/-- The table in which a byte stands for further labels too. -/
def add (x : Expansion) (byte : UInt8) (labels : List UInt8) : Expansion :=
  ⟨x.pairs ++ labels.map (byte, ·)⟩

/-- Whether a byte of a query stands for a label. -/
def hits (x : Expansion) (byte label : UInt8) : Bool :=
  byte == label || x.pairs.contains (byte, label)

/-- The number of bytes that stand for more labels than themselves. -/
def size (x : Expansion) : Nat :=
  ((x.pairs.filter fun (byte, label) ↦ byte != label).map (·.1)).eraseDups.length

/-- The summary that stands for a table in messages. -/
def describe (x : Expansion) : String := s!"KeyExpansionTable \x7b expanded_keys: {x.size} \x7d"

end Expansion

/-! ### Visitors -/

/-- What a visitor answers: go on, leave out the keys below, or stop. -/
inductive SearchControl
  | goOn
  | cull
  | done
  deriving DecidableEq, Repr

/-- A visitor of keys, with its state: the key and its place in the trie. -/
abbrev Visitor (σ : Type) := σ → PredictiveMatch → σ × SearchControl

/-- Runs a step over a list until it asks to stop: the last state, and whether it did. -/
def untilStopped {σ α : Type} (step : σ → α → σ × Bool) : σ → List α → σ × Bool
  | s, [] => (s, false)
  | s, a :: rest =>
    match step s a with
    | (s, true) => (s, true)
    | (s, false) => untilStopped step s rest

namespace Trie

variable {σ : Type}

/-- The visit of a node. Where a key ends there the visitor decides; `below` visits what lies below
the node. -/
def visitNode (t : Trie) (visit : Visitor σ) (node : Nat) (key : Key) (s : σ)
    (below : σ → σ × Bool) : σ × Bool :=
  match t.matchAt node key with
  | none => below s
  | some found =>
    match visit s found with
    | (s, .goOn) => below s
    | (s, .cull) => (s, false)
    | (s, .done) => (s, true)

/-- Visits the keys that begin at a node and are spelled by bytes standing for the rest of the
query: those as long as the query and shorter. -/
def visitPrefixes (t : Trie) (x : Expansion) (visit : Visitor σ) :
    (query : Key) → (node : Nat) → (key : Key) → σ → σ × Bool
  | [], _, _, s => (s, false)
  | b :: rest, node, key, s =>
    untilStopped (fun s child ↦
      let key := key ++ [t.label child]
      t.visitNode visit child key s fun s ↦ t.visitPrefixes x visit rest child key s)
      s ((t.children node).filter fun child ↦ x.hits b (t.label child))

/-- Visits the keys, except the empty one, that are prefixes of the query when bytes stand for more
labels than themselves, in ascending order. -/
def expandedPrefixSearch (t : Trie) (query : Key) (x : Expansion) (visit : Visitor σ) (s : σ) : σ :=
  (t.visitPrefixes x visit query root [] s).1

/-- Visits the keys at a node and below it, so many levels of them. -/
def visitBelow (t : Trie) (visit : Visitor σ) :
    (levels : Nat) → (node : Nat) → (key : Key) → σ → σ × Bool
  | 0, _, _, s => (s, false)
  | levels + 1, node, key, s =>
    t.visitNode visit node key s fun s ↦
      untilStopped (fun s child ↦ t.visitBelow visit levels child (key ++ [t.label child]) s)
        s (t.children node)

/-- Visits the keys below all nodes that the rest of a query leads to. -/
def visitExpanded (t : Trie) (x : Expansion) (visit : Visitor σ) (levels : Nat) :
    (query : Key) → (node : Nat) → (key : Key) → σ → σ × Bool
  | [], node, key, s => t.visitBelow visit levels node key s
  | b :: rest, node, key, s =>
    untilStopped
      (fun s child ↦ t.visitExpanded x visit levels rest child (key ++ [t.label child]) s)
      s ((t.children node).filter fun child ↦ x.hits b (t.label child))

/-- The number of nodes that 32-bit labels counts allow, and so a bound on the levels of a trie. -/
def levelBound : Nat := UInt32.size

/-- Visits the keys that begin with the query when its bytes stand for more labels than themselves,
in ascending order. -/
def expandedPredictiveSearch (t : Trie) (query : Key) (x : Expansion) (visit : Visitor σ) (s : σ) :
    σ :=
  (t.visitExpanded x visit levelBound query root [] s).1

end Trie

end KanaKanji.Louds
