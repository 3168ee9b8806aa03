import Mathlib
import KanaKanji.Louds.Expansion
import KanaKanji.Proofs.Guarded
import KanaKanji.Proofs.Louds.KeyIds
import KanaKanji.Proofs.Louds.Links
import KanaKanji.Proofs.Louds.PrefixWalk
import KanaKanji.Proofs.Outcomes

/-!
# Walks within bounds

An accepted trie may be malformed: its degrees may describe nodes that do not exist, or a node that
is a child of itself. This module walks any such trie in guarded steps. A label is read from the
table, with a fault past its end, the numbers of nodes and keys are kept in 32 bits, and the way up
may take so many steps and no more.

Each guarded walk gives what the total one gives, and no fault, if the bits of the trie can be
numbered in 32 bits (`walks_in_bounds`). All of it comes from one fact: children are nodes
(`Trie.lt_numNodes_of_mem_children`), so only labels of nodes are read, and the numbers of nodes fit
in 32 bits. The way up takes no more steps than the number of the node, since each step leads to a
smaller one.
-/

set_option autoImplicit false

namespace KanaKanji.Louds.Guarded

open KanaKanji.Guarded Outcomes

/-! ### Guarded walks -/

section Walks

variable (t : Trie)

/-- The label of a node, read from the table. -/
def label (node : ℕ) : Except Fault UInt8 := fetch t.labels node

/-- The children of a node. -/
def children (node : ℕ) : List ℕ := (t.children node).map narrow

/-- The id of the key that ends at a node. -/
def keyId? (node : ℕ) : Option ℕ := (t.keyId? node).map narrow

/-- The node at which the key with an id ends. -/
def nodeOfKeyId? (keyId : ℕ) : Option ℕ := (t.nodeOfKeyId? keyId).map narrow

/-- The node above a node. -/
def parent? (node : ℕ) : Option ℕ := (t.parent? node).map narrow

/-- The first of some nodes with a label; a greater label ends the search. -/
def firstLabelled (wanted : UInt8) : List ℕ → Except Fault (Option ℕ)
  | [] => .ok none
  | node :: rest => do
    let found ← label t node
    if found = wanted then return some node
    else if wanted < found then return none
    else firstLabelled wanted rest

/-- The child that a label leads to. -/
def child? (node : ℕ) (wanted : UInt8) : Except Fault (Option ℕ) :=
  firstLabelled t wanted (children t node)

/-- The node that a string of bytes leads to from a node. -/
def descend? : ℕ → Key → Except Fault (Option ℕ)
  | node, [] => .ok (some node)
  | node, b :: rest => do
    match ← child? t node b with
    | none => return none
    | some child => descend? child rest

/-- The node that a string of bytes leads to from the root. -/
def traverse? (key : Key) : Except Fault (Option ℕ) := descend? t Trie.root key

/-- The node that a key leads to, if a key of the trie ends there. -/
def exactMatch? (key : Key) : Except Fault (Option ℕ) :=
  (traverse? t key).map (·.filter t.isTerminal)

/-- The matches along a query from a node at a depth. -/
def prefixMatches : (node depth : ℕ) → Key → Except Fault (List PrefixMatch)
  | _, _, [] => .ok []
  | node, depth, b :: rest => do
    match ← child? t node b with
    | none => return []
    | some child =>
      let behind ← prefixMatches child (depth + 1) rest
      return ((keyId? t child).map (⟨child, ·, depth + 1⟩)).toList ++ behind

/-- The keys that are prefixes of the query, except the empty one, shortest first. -/
def commonPrefixSearch (query : Key) : Except Fault (List PrefixMatch) :=
  prefixMatches t Trie.root 0 query

/-- Runs a step over a list until it asks to stop. -/
def untilStopped {σ α : Type} (step : σ → α → Except Fault (σ × Bool)) :
    σ → List α → Except Fault (σ × Bool)
  | s, [] => .ok (s, false)
  | s, a :: rest => do
    match ← step s a with
    | (s, true) => return (s, true)
    | (s, false) => untilStopped step s rest

variable {σ : Type}

/-- The visit of a node, and of what lies below it. -/
def visitNode (visit : Visitor σ) (node : ℕ) (key : Key) (s : σ)
    (below : σ → Except Fault (σ × Bool)) : Except Fault (σ × Bool) :=
  match (keyId? t node).map (⟨key, node, ·⟩) with
  | none => below s
  | some found =>
    match visit s found with
    | (s, .goOn) => below s
    | (s, .cull) => .ok (s, false)
    | (s, .done) => .ok (s, true)

/-- Visits the keys that are spelled by bytes standing for front parts of the query. -/
def visitPrefixes (x : Expansion) (visit : Visitor σ) :
    (query : Key) → (node : ℕ) → (key : Key) → σ → Except Fault (σ × Bool)
  | [], _, _, s => .ok (s, false)
  | b :: rest, node, key, s =>
    untilStopped (fun s child ↦ do
      let found ← label t child
      if x.hits b found then
        visitNode t visit child (key ++ [found]) s
          fun s ↦ visitPrefixes x visit rest child (key ++ [found]) s
      else return (s, false))
      s (children t node)

/-- Visits the keys that are prefixes of the query when bytes stand for more labels than
themselves. -/
def expandedPrefixSearch (query : Key) (x : Expansion) (visit : Visitor σ) (s : σ) :
    Except Fault σ :=
  (visitPrefixes t x visit query Trie.root [] s).map (·.1)

/-- The labels on the way up from a node, in so many steps at most. -/
def spellUp : (steps node : ℕ) → Key → Except Fault (Option Key)
  | 0, _, _ => .error .unfinished
  | steps + 1, node, spelled =>
    if node = Trie.root then .ok (some spelled)
    else do
      let found ← label t node
      match parent? t node with
      | none => return none
      | some parent =>
        if node ≤ parent then return none else spellUp steps parent (found :: spelled)

/-- The labels on the way from the root to a node, found in a step for each number up to it at
most. -/
def reverseLookup? (node : ℕ) : Except Fault (Option Key) :=
  if t.numNodes ≤ node then .ok none else spellUp t (node + 1) node []

/-- The key with an id. -/
def reverseLookupKeyId? (keyId : ℕ) : Except Fault (Option Key) :=
  match nodeOfKeyId? t keyId with
  | none => .ok none
  | some node => reverseLookup? t node

end Walks

/-! ### Labels and numbers -/

variable {t : Trie}

theorem label_eq_ok {node : ℕ} (hnode : node < t.numNodes) :
    label t node = .ok (t.label node) :=
  fetch_eq_ok_iff.mpr (Trie.label?_eq_some_label hnode)

/-- Nodes can be numbered in 32 bits if their bits can. -/
theorem numNodes_lt (hdegrees : t.degrees.length < UInt32.size) : t.numNodes < UInt32.size := by
  rw [Trie.numNodes, ← t.ones_degrees]
  exact t.degrees.ones_le_length.trans_lt hdegrees

/-- Keys can be numbered in 32 bits if their bits can. -/
theorem numKeys_lt (hterminals : t.terminals.length < UInt32.size) : t.numKeys < UInt32.size :=
  t.terminals.ones_le_length.trans_lt hterminals

theorem children_eq (hnodes : t.numNodes < UInt32.size) (node : ℕ) :
    children t node = t.children node := by
  rw [children]
  refine (List.map_congr_left fun child hchild ↦ ?_).trans (List.map_id _)
  exact narrow_eq ((Trie.lt_numNodes_of_mem_children hchild).trans hnodes)

theorem nodeOfKeyId?_eq (hnodes : t.numNodes < UInt32.size) (keyId : ℕ) :
    nodeOfKeyId? t keyId = t.nodeOfKeyId? keyId := by
  rw [nodeOfKeyId?]
  rcases hnode : t.nodeOfKeyId? keyId with _ | node
  · rfl
  · have hbound := Trie.lt_numNodes_of_keyId? (Trie.nodeOfKeyId?_eq_some_iff.mp hnode)
    rw [Option.map_some, narrow_eq (hbound.trans hnodes)]

theorem keyId?_eq (hkeys : t.numKeys < UInt32.size) (node : ℕ) : keyId? t node = t.keyId? node := by
  rw [keyId?]
  rcases hid : t.keyId? node with _ | id
  · rfl
  · obtain ⟨hone, hrank⟩ := BitVector.select1_eq_some_iff _ |>.mp
      (Option.filter_eq_some_iff.mp (Trie.nodeOfKeyId?_eq_some_iff.mpr hid)).1
    have hlt : t.terminals.rank1 node < t.numKeys := t.terminals.rank1_lt_ones hone
    rw [Option.map_some, narrow_eq (by omega)]

theorem parent?_eq (hdegrees : t.degrees.length < UInt32.size) (node : ℕ) :
    parent? t node = t.parent? node := by
  rw [parent?]
  rcases hparent : t.parent? node with _ | parent
  · rfl
  · obtain ⟨-, hchild⟩ := Trie.parent?_eq_some_iff.mp hparent
    obtain ⟨bit, hone, -, hzeros⟩ := Trie.mem_children_iff_exists_bit.mp hchild
    have hsum := t.degrees.rank1_add_rank0 bit
    have hbound := BitVector.lt_length_of_get hone
    rw [Option.map_some, narrow_eq (by omega)]

/-! ### Walks within bounds -/

/-- Labels are read up to the first that is not smaller than the one wanted. -/
theorem firstLabelled_eq_ok (wanted : UInt8) {nodes : List ℕ}
    (hnodes : ∀ node ∈ nodes, node < t.numNodes) :
    firstLabelled t wanted nodes =
      .ok ((nodes.takeWhile (t.label · ≤ wanted)).find? (t.label · == wanted)) := by
  induction nodes with
  | nil => rfl
  | cons node rest ih =>
    rw [List.forall_mem_cons] at hnodes
    rw [firstLabelled, label_eq_ok hnodes.1, ok_bind]
    by_cases heq : t.label node = wanted
    · rw [if_pos heq, List.takeWhile_cons_of_pos (by simp [heq]),
        List.find?_cons_of_pos (by simp [heq])]
      rfl
    rw [if_neg heq]
    by_cases hlt : wanted < t.label node
    · rw [if_pos hlt, List.takeWhile_cons_of_neg (by simpa using hlt)]
      rfl
    · rw [if_neg hlt, ih hnodes.2, List.takeWhile_cons_of_pos (by simpa using hlt),
        List.find?_cons_of_neg (by simpa using heq)]

section Walks

variable (hnodes : t.numNodes < UInt32.size)

include hnodes

theorem child?_eq_ok (node : ℕ) (wanted : UInt8) :
    child? t node wanted = .ok (t.child? node wanted) := by
  rw [child?, children_eq hnodes,
    firstLabelled_eq_ok wanted fun _ hchild ↦ Trie.lt_numNodes_of_mem_children hchild]
  rfl

theorem descend?_eq_ok (node : ℕ) (path : Key) :
    descend? t node path = .ok (t.descend? node path) := by
  induction path generalizing node with
  | nil => rfl
  | cons b rest ih =>
    rw [descend?, child?_eq_ok hnodes, ok_bind, Trie.descend?]
    cases t.child? node b with
    | none => rfl
    | some child => exact ih child

theorem exactMatch?_eq_ok (key : Key) : exactMatch? t key = .ok (t.exactMatch? key) := by
  rw [exactMatch?, traverse?, descend?_eq_ok hnodes]
  rfl

variable (hkeys : t.numKeys < UInt32.size)

include hkeys

theorem prefixMatches_eq_ok (node depth : ℕ) (query : Key) :
    prefixMatches t node depth query = .ok (PrefixWalk.toList t ⟨node, depth, query⟩) := by
  induction query generalizing node depth with
  | nil => rw [prefixMatches, PrefixWalk.toList_nil]
  | cons b rest ih =>
    rw [prefixMatches, child?_eq_ok hnodes, ok_bind]
    rcases hchild : t.child? node b with _ | child
    · rw [PrefixWalk.toList_cons_of_eq_none hchild]
      rfl
    · rw [PrefixWalk.toList_cons_of_eq_some hchild]
      dsimp only
      rw [ih, ok_bind, keyId?_eq hkeys]
      rfl

theorem commonPrefixSearch_eq_ok (query : Key) :
    commonPrefixSearch t query = .ok (t.commonPrefixSearch query) :=
  prefixMatches_eq_ok hnodes hkeys Trie.root 0 query

end Walks

section Up

variable (hdegrees : t.degrees.length < UInt32.size)

include hdegrees

theorem spellUp_eq_ok {steps node : ℕ} (hnode : node < t.numNodes) (hsteps : node < steps)
    (spelled : Key) : spellUp t steps node spelled = .ok (t.spellUp node spelled) := by
  induction steps generalizing node spelled with
  | zero => exact absurd hsteps (Nat.not_lt_zero node)
  | succ steps ih =>
    rw [spellUp, Trie.spellUp]
    by_cases hroot : node = Trie.root
    · rw [if_pos hroot, if_pos hroot]
    rw [if_neg hroot, if_neg hroot, label_eq_ok hnode, ok_bind, parent?_eq hdegrees]
    rcases t.parent? node with _ | parent
    · rfl
    dsimp only
    by_cases hlt : parent < node
    · rw [if_neg (by omega), dif_pos hlt, ih (hlt.trans hnode) (by omega)]
    · rw [if_pos (by omega), dif_neg hlt]
      rfl

theorem reverseLookup?_eq_ok (node : ℕ) :
    reverseLookup? t node = .ok (t.reverseLookup? node) := by
  rw [reverseLookup?, Trie.reverseLookup?]
  by_cases hnode : node < t.numNodes
  · rw [if_neg (by omega), if_pos hnode, spellUp_eq_ok hdegrees hnode (Nat.lt_succ_self node)]
  · rw [if_pos (by omega), if_neg hnode]

theorem reverseLookupKeyId?_eq_ok (keyId : ℕ) :
    reverseLookupKeyId? t keyId = .ok (t.reverseLookupKeyId? keyId) := by
  rw [reverseLookupKeyId?, nodeOfKeyId?_eq (numNodes_lt hdegrees), Trie.reverseLookupKeyId?]
  cases t.nodeOfKeyId? keyId with
  | none => rfl
  | some node => exact reverseLookup?_eq_ok hdegrees node

end Up

/-! ### Visits within bounds -/

section Visits

variable {σ : Type}

/-- A step that leaves out some elements runs over the others. -/
theorem untilStopped_eq_ok {α : Type} {p : α → Bool} {step : σ → α → Except Fault (σ × Bool)}
    {total : σ → α → σ × Bool} {xs : List α}
    (hstep : ∀ s, ∀ a ∈ xs, step s a = .ok (if p a then total s a else (s, false))) (s : σ) :
    untilStopped step s xs = .ok (Louds.untilStopped total s (xs.filter p)) := by
  induction xs generalizing s with
  | nil => rfl
  | cons a rest ih =>
    have hrest := ih fun s b hb ↦ hstep s b (List.mem_cons_of_mem a hb)
    rw [untilStopped, hstep s a List.mem_cons_self, ok_bind]
    by_cases ha : p a
    · rw [if_pos ha, List.filter_cons_of_pos ha, Louds.untilStopped]
      rcases total s a with ⟨s, _ | _⟩
      · exact hrest s
      · rfl
    · rw [if_neg ha, List.filter_cons_of_neg ha]
      exact hrest s

variable (hkeys : t.numKeys < UInt32.size)

include hkeys

theorem visitNode_eq_ok {visit : Visitor σ} {node : ℕ} {key : Key} {s : σ}
    {below : σ → Except Fault (σ × Bool)} {total : σ → σ × Bool}
    (hbelow : ∀ s, below s = .ok (total s)) :
    visitNode t visit node key s below = .ok (t.visitNode visit node key s total) := by
  rw [visitNode, Trie.visitNode, keyId?_eq hkeys, Trie.matchAt]
  rcases (t.keyId? node).map (PredictiveMatch.mk key node) with _ | found
  · exact hbelow s
  dsimp only
  rcases visit s found with ⟨s, _ | _ | _⟩
  · exact hbelow s
  · rfl
  · rfl

variable (hnodes : t.numNodes < UInt32.size)

include hnodes

theorem visitPrefixes_eq_ok (x : Expansion) (visit : Visitor σ) (query : Key) (node : ℕ)
    (key : Key) (s : σ) :
    visitPrefixes t x visit query node key s = .ok (t.visitPrefixes x visit query node key s) := by
  induction query generalizing node key s with
  | nil => rfl
  | cons b rest ih =>
    rw [visitPrefixes, Trie.visitPrefixes, children_eq hnodes]
    refine untilStopped_eq_ok (fun s child hchild ↦ ?_) s
    rw [label_eq_ok (Trie.lt_numNodes_of_mem_children hchild), ok_bind]
    by_cases hhit : x.hits b (t.label child)
    · rw [if_pos hhit, if_pos hhit]
      exact visitNode_eq_ok hkeys fun s ↦ ih child _ s
    · rw [if_neg hhit, if_neg hhit]
      rfl

theorem expandedPrefixSearch_eq_ok (query : Key) (x : Expansion) (visit : Visitor σ) (s : σ) :
    expandedPrefixSearch t query x visit s = .ok (t.expandedPrefixSearch query x visit s) := by
  rw [expandedPrefixSearch, visitPrefixes_eq_ok hkeys hnodes]
  rfl

end Visits

/-! ### Accepted tries -/

/-- An accepted image has a label, which is the root's. -/
theorem labels_ne_nil_of_ofBytes {bytes : List UInt8} {image : Image}
    (himage : Image.ofBytes bytes = .ok image) : image.labels ≠ [] := by
  simp only [Image.ofBytes, bind_eq_ok_iff, ite_throw_eq_ok_iff, pure_eq_ok_iff] at himage
  obtain ⟨_, _, _, _, _, _, ⟨labelCount, rest⟩, _, _, hcount, hlength, rfl⟩ := himage
  rw [← List.length_pos_iff, List.length_take, List.length_drop]
  omega

theorem root_lt_numNodes {bytes : List UInt8} (hopen : Trie.ofBytes bytes = .ok t) :
    Trie.root < t.numNodes := by
  obtain ⟨image, himage, hopen⟩ := bind_eq_ok_iff.mp hopen
  obtain ⟨-, -, hlabels⟩ := Trie.areas_of_ofImage hopen
  rw [Trie.numNodes, hlabels]
  exact List.length_pos_iff.mpr (labels_ne_nil_of_ofBytes himage)

/-- On a trie that was accepted, and whose bits can be numbered in 32 bits, every child of a node is
a node, and no walk reads past the end of the labels or goes on without end. A string that a node
spells leads from the root to the node. -/
theorem walks_in_bounds {bytes : List UInt8} (hopen : Trie.ofBytes bytes = .ok t)
    (hdegrees : t.degrees.length < UInt32.size) (hterminals : t.terminals.length < UInt32.size) :
    Trie.root < t.numNodes ∧
      (∀ node, ∀ child ∈ children t node, child < t.numNodes) ∧
      (∀ node wanted, child? t node wanted = .ok (t.child? node wanted)) ∧
      (∀ key, traverse? t key = .ok (t.traverse? key)) ∧
      (∀ key, exactMatch? t key = .ok (t.exactMatch? key)) ∧
      (∀ query, commonPrefixSearch t query = .ok (t.commonPrefixSearch query)) ∧
      (∀ (σ : Type) (visit : Visitor σ) query x s,
        expandedPrefixSearch t query x visit s = .ok (t.expandedPrefixSearch query x visit s)) ∧
      (∀ node, parent? t node = t.parent? node) ∧
      (∀ node, reverseLookup? t node = .ok (t.reverseLookup? node)) ∧
      (∀ keyId, reverseLookupKeyId? t keyId = .ok (t.reverseLookupKeyId? keyId)) ∧
      ∀ node key, t.reverseLookup? node = some key → t.Leads Trie.root key node := by
  have hnodes := numNodes_lt hdegrees
  have hkeys := numKeys_lt hterminals
  refine ⟨root_lt_numNodes hopen, fun node child hchild ↦ ?_, child?_eq_ok hnodes,
    descend?_eq_ok hnodes Trie.root, exactMatch?_eq_ok hnodes,
    commonPrefixSearch_eq_ok hnodes hkeys,
    fun σ visit query x s ↦ expandedPrefixSearch_eq_ok hkeys hnodes query x visit s,
    parent?_eq hdegrees, reverseLookup?_eq_ok hdegrees, reverseLookupKeyId?_eq_ok hdegrees,
    fun node key hkey ↦ Trie.leads_of_reverseLookup? hkey⟩
  rw [children_eq hnodes] at hchild
  exact Trie.lt_numNodes_of_mem_children hchild

/-- Four nodes whose degrees are `1 0 0 0 0 1 1 1`: the root has no children, and the last node has
three, itself among them. -/
def loopedBytes : List UInt8 :=
  [4, 0, 0, 0, 4, 0, 0, 0, 8, 0, 0, 0, 4, 0, 0, 0, 0xE1, 0, 0, 0, 0x0F, 0, 0, 0, 120, 97, 98, 99]

/-- Up from a node that is its own parent there is an end, down from it there is the label. -/
theorem walks_in_bounds_looped :
    ∃ t, Trie.ofBytes loopedBytes = .ok t ∧ t.degrees.length < UInt32.size ∧
      t.terminals.length < UInt32.size ∧ parent? t 3 = some 3 ∧
      reverseLookup? t 3 = .ok none ∧ child? t 3 99 = .ok (some 3) := by
  obtain ⟨t, hopen, hdegrees, hterminals, hparent, hspelled, hchild⟩ :
      ∃ t, Trie.ofBytes loopedBytes = .ok t ∧ t.degrees.length < UInt32.size ∧
        t.terminals.length < UInt32.size ∧ t.parent? 3 = some 3 ∧ t.reverseLookup? 3 = none ∧
        t.child? 3 99 = some 3 :=
    ⟨_, rfl, by decide, by decide, by cbv, by cbv, by cbv⟩
  obtain ⟨-, -, hdown, -, -, -, -, hup, hback, -, -⟩ := walks_in_bounds hopen hdegrees hterminals
  exact ⟨t, hopen, hdegrees, hterminals, by rw [hup, hparent], by rw [hback, hspelled],
    by rw [hdown, hchild]⟩

end KanaKanji.Louds.Guarded
