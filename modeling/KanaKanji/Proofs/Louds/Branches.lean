import Mathlib
import KanaKanji.Louds.Build
import KanaKanji.Proofs.Lists

/-!
# The tree of a list of keys

A node stands for what is left of the keys below it. On a sorted node without repetitions, which
the root is (`pairwise_sortedKeys`), the edges and the nodes below them are those one expects: the
labels ascend (`pairwise_childLabels`), a label is there just if a key goes on with it
(`mem_childLabels`), and the child below it holds what is left of those keys
(`children_eq_map_after`).

`Node.below` follows a string of bytes down from a node. Its keys are the ends of the keys that
begin with that string (`mem_below`), so below the root there is a key exactly for the prefixes of
the keys, and the string itself is a key exactly where the node is terminal
(`isTerminal_below_iff`).
-/

set_option autoImplicit false

namespace KanaKanji.Louds

/-! ### Sorting keys -/

theorem eraseReps_cons_self (a : Key) (rest : List Key) :
    (a :: a :: rest).eraseReps = (a :: rest).eraseReps := by
  simp [List.eraseReps, List.eraseRepsBy, List.eraseRepsBy.loop]

theorem eraseRepsBy_loop (a : Key) (rest seen : List Key) :
    List.eraseRepsBy.loop (· == ·) a rest seen = seen.reverse ++ (a :: rest).eraseReps := by
  induction rest generalizing a seen with
  | nil => simp [List.eraseReps, List.eraseRepsBy, List.eraseRepsBy.loop]
  | cons b rest ih =>
    rw [List.eraseReps, List.eraseRepsBy, List.eraseRepsBy.loop, List.eraseRepsBy.loop]
    cases hab : a == b
    · simp only [ih, List.reverse_cons, List.reverse_nil, List.nil_append, List.append_assoc,
        List.singleton_append]
    · simp only [ih, List.reverse_nil, List.nil_append]

theorem eraseReps_cons_of_ne {a b : Key} (hab : a ≠ b) (rest : List Key) :
    (a :: b :: rest).eraseReps = a :: (b :: rest).eraseReps := by
  have hbeq : (a == b) = false := by simpa using hab
  rw [List.eraseReps, List.eraseRepsBy, List.eraseRepsBy.loop, hbeq]
  simp [eraseRepsBy_loop]

/-- Leaving out repetitions loses no key. -/
theorem mem_eraseReps {key : Key} {keys : List Key} : key ∈ keys.eraseReps ↔ key ∈ keys := by
  induction keys with
  | nil => simp [List.eraseReps, List.eraseRepsBy]
  | cons a rest ih =>
    cases rest with
    | nil => simp [List.eraseReps, List.eraseRepsBy, List.eraseRepsBy.loop]
    | cons b rest =>
      by_cases hab : a = b
      · subst hab
        rw [eraseReps_cons_self, ih]
        simp
      · rw [eraseReps_cons_of_ne hab, List.mem_cons, ih, List.mem_cons (b := a)]

/-- Of ascending keys without repetitions each is below the next. -/
theorem pairwise_eraseReps {keys : List Key} (hkeys : keys.Pairwise (· ≤ ·)) :
    keys.eraseReps.Pairwise (· < ·) := by
  induction keys with
  | nil => simp [List.eraseReps, List.eraseRepsBy]
  | cons a rest ih =>
    cases rest with
    | nil => simp [List.eraseReps, List.eraseRepsBy, List.eraseRepsBy.loop]
    | cons b rest =>
      obtain ⟨hle, hrest⟩ := List.pairwise_cons.mp hkeys
      by_cases hab : a = b
      · subst hab
        rw [eraseReps_cons_self]
        exact ih hrest
      · rw [eraseReps_cons_of_ne hab, List.pairwise_cons]
        refine ⟨fun key hkey ↦ ?_, ih hrest⟩
        have hlt : a < b := Std.lt_of_le_of_ne (hle b List.mem_cons_self) hab
        rcases List.mem_cons.mp (mem_eraseReps.mp hkey) with rfl | hkey
        · exact hlt
        · exact Std.lt_of_lt_of_le hlt ((List.pairwise_cons.mp hrest).1 key hkey)

/-- Sorting loses no key. -/
theorem mem_sortedKeys {key : Key} {keys : List Key} : key ∈ sortedKeys keys ↔ key ∈ keys := by
  rw [sortedKeys, mem_eraseReps, List.mem_mergeSort]

/-- Sorted keys ascend, each of them once. -/
theorem pairwise_sortedKeys (keys : List Key) : (sortedKeys keys).Pairwise (· < ·) := by
  refine pairwise_eraseReps ?_
  have hsorted : (keys.mergeSort fun a b ↦ decide (a ≤ b)).Pairwise
      fun a b ↦ decide (a ≤ b) = true := by
    refine List.pairwise_mergeSort (fun a b c hab hbc ↦ ?_) (fun a b ↦ ?_) keys
    · simp only [decide_eq_true_eq] at hab hbc ⊢
      exact Std.le_trans hab hbc
    · simpa using Std.le_total
  exact hsorted.imp (by simp)

namespace Node

/-! ### One byte down -/

/-- What is left of the keys at a node that go on with a byte. -/
def after (node : Node) (label : UInt8) : Node :=
  node.filterMap fun key ↦
    match key with
    | [] => none
    | b :: tail => if b = label then some tail else none

theorem mem_after {node : Node} {label : UInt8} {tail : Key} :
    tail ∈ node.after label ↔ label :: tail ∈ node := by
  simp only [after, List.mem_filterMap]
  constructor
  · rintro ⟨_ | ⟨b, rest⟩, hkey, hmatch⟩
    · simp at hmatch
    · simp only [Option.ite_none_right_eq_some, Option.some.injEq] at hmatch
      obtain ⟨rfl, rfl⟩ := hmatch
      exact hkey
  · intro hkey
    exact ⟨label :: tail, hkey, by simp⟩

/-- What is left of sorted keys is sorted. -/
theorem pairwise_after {node : Node} (hnode : node.Pairwise (· < ·)) (label : UInt8) :
    (node.after label).Pairwise (· < ·) := by
  refine hnode.filterMap _ fun key next hlt tail htail rest hrest ↦ ?_
  cases key with
  | nil => simp at htail
  | cons b key =>
    cases next with
    | nil => simp at hrest
    | cons c next =>
      simp only [Option.ite_none_right_eq_some, Option.some.injEq] at htail hrest
      obtain ⟨rfl, rfl⟩ := htail
      obtain ⟨rfl, rfl⟩ := hrest
      simpa [List.cons_lt_cons_iff, Std.lt_irrefl] using hlt

@[simp] theorem after_cons_nil (rest : Node) (label : UInt8) :
    after ([] :: rest) label = after rest label := rfl

@[simp] theorem after_cons_self (label : UInt8) (tail : Key) (rest : Node) :
    after ((label :: tail) :: rest) label = tail :: after rest label := by
  simp [after]

theorem after_cons_of_ne {b label : UInt8} (hb : b ≠ label) (tail : Key) (rest : Node) :
    after ((b :: tail) :: rest) label = after rest label := by
  simp [after, hb]

/-! ### Edges -/

/-- There is an edge with a label where a key goes on with it. -/
theorem mem_childLabels {node : Node} {label : UInt8} :
    label ∈ node.childLabels ↔ ∃ tail, label :: tail ∈ node := by
  fun_induction branches node with
  | case1 => simp [childLabels, branches]
  | case2 rest ih => simpa [childLabels, branches] using ih
  | case3 first tail rest hnone ih =>
    have hothers : ∀ tail', label :: tail' ∉ rest := fun tail' hmem ↦ by
      have hlabel := ih.mpr ⟨tail', hmem⟩
      simp [childLabels, hnone] at hlabel
    simp [childLabels, branches, hnone, hothers]
  | case4 tail rest first child more hsome ih =>
    have hlabels : childLabels ((first :: tail) :: rest) = childLabels rest := by
      simp [childLabels, branches, hsome]
    rw [hlabels, ih]
    constructor
    · rintro ⟨tail', hmem⟩
      exact ⟨tail', List.mem_cons_of_mem _ hmem⟩
    · rintro ⟨tail', hmem⟩
      rcases List.mem_cons.mp hmem with heq | hmem
      · obtain ⟨rfl, -⟩ := List.cons.inj heq
        exact ih.mp (by simp [childLabels, hsome])
      · exact ⟨tail', hmem⟩
  | case5 first tail rest next child more hsome hne ih =>
    have hlabels : childLabels ((first :: tail) :: rest) = first :: childLabels rest := by
      simp [childLabels, branches, hsome, hne]
    rw [hlabels, List.mem_cons, ih]
    simp [exists_or]

/-- The nodes below the edges with a label hold what is left of the keys that go on with it. -/
theorem flatMap_filter_branches (node : Node) (label : UInt8) :
    (node.branches.filter (·.1 = label)).flatMap Prod.snd = node.after label := by
  fun_induction branches node with
  | case1 => rfl
  | case2 rest ih => exact ih
  | case3 first tail rest hnone ih =>
    rw [hnone] at ih
    by_cases hlabel : first = label
    · subst hlabel
      simp [← ih]
    · simp [hlabel, after_cons_of_ne hlabel, ← ih]
  | case4 tail rest first child more hsome ih =>
    rw [hsome] at ih
    by_cases hlabel : first = label
    · subst hlabel
      simp [← ih]
    · simp [hlabel, after_cons_of_ne hlabel, ← ih]
  | case5 first tail rest next child more hsome hne ih =>
    rw [hsome] at ih
    by_cases hlabel : first = label
    · subst hlabel
      simp [← ih]
    · simp [hlabel, after_cons_of_ne hlabel, ← ih]

section Sorted

variable {node : Node} (hnode : node.Pairwise (· < ·))

include hnode

/-- The labels of the edges ascend. -/
theorem pairwise_childLabels : node.childLabels.Pairwise (· < ·) := by
  fun_induction branches node with
  | case1 => exact List.Pairwise.nil
  | case2 rest ih => exact ih (List.pairwise_cons.mp hnode).2
  | case3 first tail rest hnone ih => simp [childLabels, branches, hnone]
  | case4 tail rest first child more hsome ih =>
    have hlabels := ih (List.pairwise_cons.mp hnode).2
    simpa [childLabels, branches, hsome] using hlabels
  | case5 first tail rest next child more hsome hne ih =>
    obtain ⟨hfirst, hrest⟩ := List.pairwise_cons.mp hnode
    have hlabels := ih hrest
    have hbound : ∀ other ∈ childLabels rest, first < other ∨ first = other := by
      intro other hother
      obtain ⟨tail', hmem⟩ := mem_childLabels.mp hother
      exact (List.cons_lt_cons_iff.mp (hfirst _ hmem)).imp id And.left
    have hcons : childLabels ((first :: tail) :: rest) = first :: childLabels rest := by
      simp [childLabels, branches, hsome, hne]
    rw [hcons, List.pairwise_cons]
    refine ⟨?_, hlabels⟩
    -- The labels of the others ascend from `next`, which is above the new one.
    have hothers : childLabels rest = next :: more.map Prod.fst := by
      rw [childLabels, hsome, List.map_cons]
    rw [hothers] at hlabels hbound ⊢
    have hlt : first < next := (hbound next List.mem_cons_self).resolve_right hne
    intro other hother
    rcases List.mem_cons.mp hother with rfl | hother
    · exact hlt
    · exact Std.lt_trans hlt ((List.pairwise_cons.mp hlabels).1 other hother)

/-- The child below an edge holds what is left of the keys that go on with its label. -/
theorem children_eq_map_after : node.children = node.childLabels.map node.after := by
  rw [children, childLabels, List.map_map]
  refine List.map_congr_left fun ⟨label, child⟩ hedge ↦ ?_
  have hdistinct : node.branches.Pairwise fun edge other ↦ edge.1 ≠ other.1 :=
    (List.pairwise_map.mp (pairwise_childLabels hnode)).imp Std.ne_of_lt
  have honly : node.branches.filter (·.1 = label) = [(label, child)] :=
    Lists.filter_key_eq_singleton hdistinct hedge
  rw [Function.comp_apply, ← flatMap_filter_branches, honly, List.flatMap_singleton]

end Sorted

/-! ### Many bytes down -/

/-- What is left of the keys at a node that go on with a string of bytes. -/
def below (node : Node) (path : Key) : Node := path.foldl after node

@[simp] theorem below_nil (node : Node) : node.below [] = node := rfl

theorem below_append_singleton (node : Node) (path : Key) (label : UInt8) :
    node.below (path ++ [label]) = (node.below path).after label := by
  simp [below]

/-- The keys below a string are the ends of the keys that begin with it. -/
theorem mem_below {node : Node} {path tail : Key} :
    tail ∈ node.below path ↔ path ++ tail ∈ node := by
  induction path generalizing node with
  | nil => rfl
  | cons label path ih => exact ih.trans mem_after

theorem pairwise_below {node : Node} (hnode : node.Pairwise (· < ·)) (path : Key) :
    (node.below path).Pairwise (· < ·) := by
  induction path generalizing node with
  | nil => exact hnode
  | cons label path ih => exact ih (pairwise_after hnode label)

/-- A sorted node is terminal where nothing is left of one of its keys. -/
theorem isTerminal_iff {node : Node} (hnode : node.Pairwise (· < ·)) :
    node.isTerminal = true ↔ [] ∈ node := by
  cases node with
  | nil => simp [isTerminal]
  | cons key rest =>
    simp only [isTerminal, List.head?_cons, beq_iff_eq, Option.some.injEq, List.mem_cons]
    constructor
    · intro hkey
      exact Or.inl hkey.symm
    · rintro (hkey | hmem)
      · exact hkey.symm
      · have hlt := (List.pairwise_cons.mp hnode).1 [] hmem
        simp at hlt

/-- The node that a string leads to is terminal just if the string is a key. -/
theorem isTerminal_below_iff {node : Node} (hnode : node.Pairwise (· < ·)) (path : Key) :
    (node.below path).isTerminal = true ↔ path ∈ node := by
  rw [isTerminal_iff (pairwise_below hnode path), mem_below, List.append_nil]

end Node

end KanaKanji.Louds
