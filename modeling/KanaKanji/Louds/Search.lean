import KanaKanji.Louds.Trie

/-!
# Searching a trie

Two searches for the keys around a string of bytes. `Trie.commonPrefixSearch` finds the keys that
are prefixes of it, shortest first; `PrefixWalk` is the same search taken one match at a time, and a
walk that has ended stays ended. `Trie.predictiveSearch` finds the keys that it is a prefix of, in
ascending order.
-/

set_option autoImplicit false

namespace KanaKanji.Louds

/-! ### Keys that are prefixes -/

/-- A key on the way that a query spells: the node where it ends, its id and its length. -/
structure PrefixMatch where
  node : Nat
  keyId : Nat
  length : Nat
  deriving DecidableEq, Repr

/-- A walk along a query: the node reached, the number of bytes read and the bytes still to come. -/
structure PrefixWalk where
  node : Nat
  depth : Nat
  rest : Key
  deriving DecidableEq, Repr

namespace PrefixWalk

/-- The walk at the root. -/
def start (query : Key) : PrefixWalk := ⟨Trie.root, 0, query⟩

/-- The walk along `rest` from a node at a depth, up to the first key: that key, if there is one,
and the walk after it. -/
def advance (t : Trie) (node depth : Nat) : Key → Option PrefixMatch × PrefixWalk
  | [] => (none, ⟨node, depth, []⟩)
  | b :: rest =>
    match t.child? node b with
    | none => (none, ⟨node, depth, []⟩)
    | some child =>
      match t.keyId? child with
      | some keyId => (some ⟨child, keyId, depth + 1⟩, ⟨child, depth + 1, rest⟩)
      | none => advance t child (depth + 1) rest

/-- The next match of a walk and the walk after it. -/
def next (t : Trie) (walk : PrefixWalk) : Option PrefixMatch × PrefixWalk :=
  advance t walk.node walk.depth walk.rest

theorem length_rest_advance {t : Trie} {node depth : Nat} {rest : Key} {found : PrefixMatch}
    (h : (advance t node depth rest).1 = some found) :
    (advance t node depth rest).2.rest.length < rest.length := by
  induction rest generalizing node depth with
  | nil => simp [advance] at h
  | cons b rest ih =>
    rw [advance] at h ⊢
    cases hchild : t.child? node b with
    | none => simp [hchild] at h
    | some child =>
      cases hid : t.keyId? child with
      | some keyId => simp [hid]
      | none =>
        simp only [hchild, hid] at h ⊢
        have := ih h
        simp only [List.length_cons]
        omega

theorem length_rest_next {t : Trie} {walk after : PrefixWalk} {m : PrefixMatch}
    (h : walk.next t = (some m, after)) : after.rest.length < walk.rest.length := by
  have hm : (advance t walk.node walk.depth walk.rest).1 = some m := congrArg Prod.fst h
  have hafter : (advance t walk.node walk.depth walk.rest).2 = after := congrArg Prod.snd h
  exact hafter ▸ length_rest_advance hm

/-- All matches of a walk. -/
def toList (t : Trie) (walk : PrefixWalk) : List PrefixMatch :=
  match found : walk.next t with
  | (none, _) => []
  | (some m, after) =>
    have : after.rest.length < walk.rest.length := length_rest_next found
    m :: toList t after
termination_by walk.rest.length

end PrefixWalk

namespace Trie

/-- The keys that are prefixes of the query, except the empty one, shortest first. -/
def commonPrefixSearch (t : Trie) (query : Key) : List PrefixMatch :=
  (PrefixWalk.start query).toList t

end Trie

/-! ### Keys that go on -/

/-- A key below a prefix, with its node and its id. -/
structure PredictiveMatch where
  key : Key
  node : Nat
  keyId : Nat
  deriving DecidableEq, Repr

namespace Trie

/-- The key that ends at a node, if there is one. -/
def matchAt (t : Trie) (node : Nat) (key : Key) : Option PredictiveMatch :=
  (t.keyId? node).map (⟨key, node, ·⟩)

/-- The keys at a node and below it, so many levels of them, in the order of the children; `key`
leads to the node. -/
def keysBelow (t : Trie) : Nat → Nat → Key → List PredictiveMatch
  | 0, _, _ => []
  | levels + 1, node, key =>
    (t.matchAt node key).toList ++
      (t.children node).flatMap fun child ↦ t.keysBelow levels child (key ++ [t.label child])

/-- The keys that begin with the given bytes, in ascending order. A trie has no more levels than
nodes. -/
def predictiveSearch (t : Trie) (start : Key) : List PredictiveMatch :=
  match t.traverse? start with
  | some node => t.keysBelow t.numNodes node start
  | none => []

end Trie

end KanaKanji.Louds
