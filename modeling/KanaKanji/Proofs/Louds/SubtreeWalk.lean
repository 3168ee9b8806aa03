import Mathlib
import KanaKanji.Proofs.Louds.Bounds
import KanaKanji.Proofs.Louds.Numbering

/-!
# Keys below a node, one after another

A predictive search can be taken one key at a time, with a stack in place of the recursion.
`SubtreeWalk` keeps the nodes that are still to be visited, each with the length of its key, and
spells all keys in one buffer. A visit cuts the buffer back to the path of the node above, adds the
label of the node, and puts the children of the node on the stack, the first on top;
`SubtreeWalk.next` goes on to the next node at which a key ends. All of it is done in guarded steps.

The buffer can be shared because the nodes on top of the stack are children of one node, and the
buffer begins with the path of that node, however far down the walk has been meanwhile. With this
`SubtreeWalk.yields_children` follows the recursion of the search, so that the walk comes to an end
and gives the same keys (`SubtreeWalk.exists_below_yields`). `predictiveSearch_of_build` says which
these are in a trie that was built.
-/

set_option autoImplicit false

namespace KanaKanji.Louds

open KanaKanji.Louds.Guarded Outcomes

/-- A walk through the nodes below a prefix: the nodes still to be visited, the next one last, each
with the length of its key, and the bytes of the key spelled last. -/
structure SubtreeWalk where
  stack : List (ℕ × ℕ)
  spelled : Key
  deriving DecidableEq, Repr

namespace SubtreeWalk

variable (t : Trie)

/-! ### The walk -/

/-- The walk that has still to visit the node that a string leads to. -/
def below (start : Key) : Except Fault SubtreeWalk := do
  match ← traverse? t start with
  | some node => return ⟨[(node, start.length)], start⟩
  | none => return ⟨[], start⟩

/-- The path to a node, spelled in the buffer. Where the walk starts it is there already. -/
def spell (startLength node depth : ℕ) (spelled : Key) : Except Fault Key :=
  if startLength < depth then do
    let found ← label t node
    return spelled.take (depth - 1) ++ [found]
  else .ok (spelled.take depth)

/-- A stack with the part from a place on turned over. -/
def turnedFrom {α : Type} (place : ℕ) (stack : List α) : List α :=
  stack.take place ++ (stack.drop place).reverse

/-- The visit of a node that was taken off the stack: the key that ends there, and the walk after
it. -/
def visit (startLength node depth : ℕ) (walk : SubtreeWalk) :
    Except Fault (Option PredictiveMatch × SubtreeWalk) := do
  let spelled ← spell t startLength node depth walk.spelled
  let stack := walk.stack ++ (children t node).map (·, depth + 1)
  return ((keyId? t node).map (⟨spelled, node, ·⟩), ⟨turnedFrom walk.stack.length stack, spelled⟩)

/-- The next key that a walk comes to, and the walk after it, in so many visits at most. -/
def next (startLength : ℕ) :
    (visits : ℕ) → SubtreeWalk → Except Fault (Option PredictiveMatch × SubtreeWalk)
  | visits, walk =>
    match walk.stack.getLast? with
    | none => .ok (none, walk)
    | some (node, depth) =>
      match visits with
      | 0 => .error .unfinished
      | visits + 1 => do
        match ← visit t startLength node depth ⟨walk.stack.dropLast, walk.spelled⟩ with
        | (some found, after) => return (some found, after)
        | (none, after) => next startLength visits after

/-- The walk gives these keys one after another, and then comes to an end. -/
inductive Yields (startLength : ℕ) : SubtreeWalk → List PredictiveMatch → Prop
  | nil {walk after : SubtreeWalk} {visits : ℕ}
      (hnext : next t startLength visits walk = .ok (none, after)) : Yields startLength walk []
  | cons {walk after : SubtreeWalk} {visits : ℕ} {found : PredictiveMatch}
      {behind : List PredictiveMatch}
      (hnext : next t startLength visits walk = .ok (some found, after))
      (hbehind : Yields startLength after behind) : Yields startLength walk (found :: behind)

/-! ### One visit -/

variable {t} {startLength : ℕ}

theorem turnedFrom_length_append {α : Type} (front back : List α) :
    turnedFrom front.length (front ++ back) = front ++ back.reverse := by
  rw [turnedFrom, List.take_left, List.drop_left]

/-- The key of a child is spelled from any buffer that begins with the path of its node. -/
theorem spell_eq_ok {node : ℕ} {path spelled : Key} (hnode : node < t.numNodes)
    (hstart : startLength ≤ path.length) (hshared : path <+: spelled) :
    spell t startLength node (path.length + 1) spelled = .ok (path ++ [t.label node]) := by
  rw [spell, if_pos (Nat.lt_succ_of_le hstart), label_eq_ok hnode, ok_bind, Nat.add_sub_cancel,
    ← List.prefix_iff_eq_take.mp hshared]
  rfl

theorem yields_of_stack_eq_nil {walk : SubtreeWalk} (hstack : walk.stack = []) :
    Yields t startLength walk [] := by
  have hend : next t startLength 0 walk = .ok (none, walk) := by
    rw [next, hstack]
    rfl
  exact .nil hend

theorem next_append_singleton (visits node depth : ℕ) (rest : List (ℕ × ℕ)) (spelled : Key) :
    next t startLength (visits + 1) ⟨rest ++ [(node, depth)], spelled⟩ = (do
      match ← visit t startLength node depth ⟨rest, spelled⟩ with
      | (some found, after) => return (some found, after)
      | (none, after) => next t startLength visits after) := by
  rw [next]
  simp only [List.getLast?_concat, List.dropLast_concat]

/-- A walk gives the key of the node on top, if one ends there, and what the walk after the visit
gives. -/
theorem yields_of_visit {node depth : ℕ} {rest : List (ℕ × ℕ)} {spelled : Key}
    {found : Option PredictiveMatch} {after : SubtreeWalk} {behind : List PredictiveMatch}
    (hvisit : visit t startLength node depth ⟨rest, spelled⟩ = .ok (found, after))
    (hbehind : Yields t startLength after behind) :
    Yields t startLength ⟨rest ++ [(node, depth)], spelled⟩ (found.toList ++ behind) := by
  cases found with
  | some found =>
    have hfirst : next t startLength 1 ⟨rest ++ [(node, depth)], spelled⟩ =
        .ok (some found, after) := by
      rw [next_append_singleton, hvisit]
      rfl
    exact .cons hfirst hbehind
  | none =>
    have hnext : ∀ visits, next t startLength (visits + 1) ⟨rest ++ [(node, depth)], spelled⟩ =
        next t startLength visits after := by
      intro visits
      rw [next_append_singleton, hvisit]
      rfl
    cases hbehind with
    | nil hend => exact .nil ((hnext _).trans hend)
    | cons hfirst hbehind => exact .cons ((hnext _).trans hfirst) hbehind

/-! ### Walks on a trie that stores keys -/

variable (hnodes : t.numNodes < UInt32.size) (hkeys : t.numKeys < UInt32.size)

include hnodes hkeys

theorem visit_eq_ok {node depth : ℕ} {rest : List (ℕ × ℕ)} {spelled key : Key}
    (hspell : spell t startLength node depth spelled = .ok key) :
    visit t startLength node depth ⟨rest, spelled⟩ =
      .ok (t.matchAt node key,
        ⟨rest ++ ((t.children node).map (·, depth + 1)).reverse, key⟩) := by
  rw [visit, hspell, ok_bind, children_eq hnodes, keyId?_eq hkeys]
  dsimp only
  rw [turnedFrom_length_append]
  rfl

variable {keys : List Key} (ht : t.Stores keys)

include ht

/-- If a walk goes on from any buffer that begins with the path of a node, then with children of the
node on the stack it first finds what the recursive search finds below them. -/
theorem yields_children {levels i : ℕ} {path : Key} (hpath : (nodePaths keys)[i]? = some path)
    (hstart : startLength ≤ path.length)
    (hlevels : ∀ longer ∈ nodePaths keys, path <+: longer → longer.length ≤ path.length + levels)
    {nodes : List ℕ} (hchildren : ∀ c ∈ nodes, c ∈ t.children i) {rest : List (ℕ × ℕ)}
    {behind : List PredictiveMatch}
    (hrest : ∀ spelled, path <+: spelled → Yields t startLength ⟨rest, spelled⟩ behind)
    {spelled : Key} (hshared : path <+: spelled) :
    Yields t startLength ⟨rest ++ (nodes.map (·, path.length + 1)).reverse, spelled⟩
      (nodes.flatMap (fun c ↦ t.keysBelow levels c (path ++ [t.label c])) ++ behind) := by
  induction levels generalizing i path nodes rest behind spelled with
  | zero =>
    cases nodes with
    | nil => simpa using hrest spelled hshared
    | cons c nodes =>
      have hc := Trie.getElem?_of_mem_children ht hpath (hchildren c List.mem_cons_self)
      have hlength := hlevels _ (List.mem_of_getElem? hc) (List.prefix_append _ _)
      simp at hlength
  | succ levels ih =>
    induction nodes generalizing spelled with
    | nil => simpa using hrest spelled hshared
    | cons c nodes ihnodes =>
      rw [List.forall_mem_cons] at hchildren
      have hc := Trie.getElem?_of_mem_children ht hpath hchildren.1
      have hlength : (path ++ [t.label c]).length = path.length + 1 := by simp
      have hbelow := ih hc (by omega) (fun longer hmem hlonger ↦ ?_) (fun d hd ↦ hd)
        (fun spelled hspelled ↦ ihnodes hchildren.2 ((List.prefix_append _ _).trans hspelled))
        List.prefix_rfl
      · rw [hlength] at hbelow
        have hfound := yields_of_visit (visit_eq_ok hnodes hkeys (spell_eq_ok
          (Trie.lt_numNodes_of_mem_children hchildren.1) hstart hshared)) hbelow
        simpa only [List.map_cons, List.reverse_cons, List.flatMap_cons, Trie.keysBelow,
          List.append_assoc] using hfound
      · have hbound := hlevels longer hmem ((List.prefix_append _ _).trans hlonger)
        omega

/-- The walk below a string gives what the recursive search finds. -/
theorem exists_below_yields (start : Key) :
    ∃ walk, below t start = .ok walk ∧ Yields t start.length walk (t.predictiveSearch start) := by
  rw [below, traverse?, descend?_eq_ok hnodes, ok_bind, Trie.predictiveSearch, ← Trie.traverse?]
  rcases hnode : t.traverse? start with _ | node
  · exact ⟨_, rfl, yields_of_stack_eq_nil rfl⟩
  have hpath := (Trie.traverse?_eq_some_iff ht).mp hnode
  have hlength := length_lt_of_mem (List.mem_of_getElem? hpath)
  obtain ⟨levels, hlevels⟩ : ∃ levels, t.numNodes = levels + 1 :=
    ⟨t.numNodes - 1, by rw [Trie.numNodes_eq_length ht]; omega⟩
  refine ⟨⟨[] ++ [(node, start.length)], start⟩, rfl, ?_⟩
  dsimp only
  rw [hlevels, Trie.keysBelow]
  have hspell : spell t start.length node start.length start = .ok start := by
    rw [spell, if_neg (lt_irrefl _), List.take_length]
  refine yields_of_visit (visit_eq_ok hnodes hkeys hspell) ?_
  rw [← List.append_nil (List.flatMap _ _)]
  refine yields_children hnodes hkeys ht hpath le_rfl (fun longer hlonger _ ↦ ?_) (fun c hc ↦ hc)
    (fun spelled _ ↦ yields_of_stack_eq_nil rfl) List.prefix_rfl
  have hbound := length_lt_of_mem hlonger
  rw [← Trie.numNodes_eq_length ht] at hbound
  omega

end SubtreeWalk

/-! ### Tries that were built -/

variable {keys : List Key}

/-- The nodes and the keys of a trie that was built can be numbered in 32 bits. -/
theorem exists_stores_lt_of_build {bytes : List UInt8} (hbytes : build keys = .ok bytes) :
    ∃ t, Trie.ofBytes bytes = .ok t ∧ t.Stores keys ∧ t.numNodes < UInt32.size ∧
      t.numKeys < UInt32.size := by
  obtain ⟨t, hopen, ht⟩ := exists_stores_of_build hbytes
  have hnodes : t.numNodes < UInt32.size := by
    rw [Trie.numNodes_eq_length ht, length_nodePaths]
    exact (build_eq_ok_iff keys).mp ⟨bytes, hbytes⟩
  exact ⟨t, hopen, ht, hnodes, (Trie.numKeys_le_numNodes ht).trans_lt hnodes⟩

/-- In a trie that was built, the walk below a string comes to an end and gives what the recursive
search finds: the keys that begin with the string, each of them once and in ascending order, with
their nodes and ids. -/
theorem predictiveSearch_of_build {bytes : List UInt8} (hbytes : build keys = .ok bytes) :
    ∃ t, Trie.ofBytes bytes = .ok t ∧ ∀ start : Key,
      (∃ walk, SubtreeWalk.below t start = .ok walk ∧
        SubtreeWalk.Yields t start.length walk (t.predictiveSearch start)) ∧
      (∀ key, key ∈ (t.predictiveSearch start).map (·.key) ↔ key ∈ keys ∧ start <+: key) ∧
      ((t.predictiveSearch start).map (·.key)).Pairwise (· < ·) ∧
      ∀ found ∈ t.predictiveSearch start,
        t.exactMatch? found.key = some found.node ∧ t.keyId? found.node = some found.keyId := by
  obtain ⟨t, hopen, ht, hnodes, hkeys⟩ := exists_stores_lt_of_build hbytes
  refine ⟨t, hopen, fun start ↦ ⟨SubtreeWalk.exists_below_yields hnodes hkeys ht start,
    fun key ↦ ?_, List.pairwise_map.mpr (Trie.pairwise_predictiveSearch ht start),
    fun found hfound ↦ ?_⟩⟩
  · simp only [List.mem_map, Trie.mem_predictiveSearch_iff ht]
    constructor
    · rintro ⟨found, ⟨hstart, hlocates⟩, rfl⟩
      exact ⟨hlocates.mem_keys, hstart⟩
    · rintro ⟨hkey, hstart⟩
      obtain ⟨node, id, hlocates⟩ := exists_locates hkey
      exact ⟨⟨key, node, id⟩, ⟨hstart, hlocates⟩, rfl⟩
  · obtain ⟨-, hlocates⟩ := (Trie.mem_predictiveSearch_iff ht).mp hfound
    exact ⟨(Trie.exactMatch?_eq_some_iff ht).mpr ⟨hlocates.node_eq, hlocates.mem_keys⟩,
      (Trie.keyId?_eq_some_iff ht hlocates.node_eq).mpr hlocates.keyId_eq⟩

/-- The keys `b`, `ab`, the empty one, `b` again and `a`: two of them begin with `a`. -/
theorem predictiveSearch_of_build_repeated :
    let keys : List Key := [[98], [97, 98], [], [98], [97]]
    ∃ bytes, build keys = .ok bytes ∧ ∃ t, Trie.ofBytes bytes = .ok t ∧
      (t.predictiveSearch [97]).map (·.key) = [[97], [97, 98]] ∧
      ∃ walk, SubtreeWalk.below t [97] = .ok walk ∧
        SubtreeWalk.Yields t 1 walk (t.predictiveSearch [97]) := by
  intro keys
  obtain ⟨bytes, hbytes⟩ := (build_eq_ok_iff keys).mpr (by decide)
  obtain ⟨t, hopen, hsearch⟩ := predictiveSearch_of_build hbytes
  obtain ⟨hyields, hmem, hascending, -⟩ := hsearch [97]
  have hbegins : ∀ key ∈ keys, [97] <+: key → key ∈ ([[97], [97, 98]] : List Key) := by decide
  have hback : ∀ key ∈ ([[97], [97, 98]] : List Key), key ∈ keys ∧ [97] <+: key := by decide
  refine ⟨bytes, hbytes, t, hopen, ?_, hyields⟩
  refine List.Perm.eq_of_pairwise' hascending (by decide)
    ((List.perm_ext_iff_of_nodup hascending.nodup (by decide)).mpr fun key ↦ ?_)
  rw [hmem]
  exact ⟨fun ⟨hkey, hstart⟩ ↦ hbegins key hkey hstart, hback key⟩

end KanaKanji.Louds
