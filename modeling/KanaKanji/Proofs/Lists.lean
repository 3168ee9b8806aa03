import Mathlib

/-!
# Places in lists

A list is parted at the place of an element (`eq_take_append_cons_drop`); where an element stands in
lists put in a row, and in what a filter keeps, follows from that. In a list whose keys differ a key
picks out one element (`filter_key_eq_singleton`), and a change at one place keeps what it keeps
there (`forall_mem_modify`, `map_modify`). For an element that moves, a list is parted at its place
and at the place where it goes (`exists_eq_append_of_le`, `exists_eq_append_of_lt`). At the end of a
list stand its last run of elements with a property (`suffix_rtakeWhile`) and its last piece behind
a separator (`splitOn_append_of_notMem`).
-/

set_option autoImplicit false

namespace KanaKanji.Lists

variable {α β : Type} {xs : List α} {a : α} {i : ℕ}

/-- A list is what stands before an element, the element, and what stands behind it. -/
theorem eq_take_append_cons_drop (ha : xs[i]? = some a) :
    xs = xs.take i ++ a :: xs.drop (i + 1) := by
  obtain ⟨hi, rfl⟩ := List.getElem?_eq_some_iff.mp ha
  rw [List.getElem_cons_drop, List.take_append_drop]

/-- A slice within a list is not changed by what is behind the list. -/
theorem take_drop_append {start size : ℕ} (hle : start + size ≤ xs.length) (more : List α) :
    ((xs ++ more).drop start).take size = (xs.drop start).take size := by
  rw [List.drop_append_of_le_length (by omega), List.take_append_of_le_length]
  rw [List.length_drop]
  omega

/-- Lists in a row are parted at the list of an element. -/
theorem flatMap_eq_append (f : α → List β) (ha : xs[i]? = some a) :
    xs.flatMap f = (xs.take i).flatMap f ++ (f a ++ (xs.drop (i + 1)).flatMap f) := by
  conv_lhs => rw [eq_take_append_cons_drop ha, List.flatMap_append, List.flatMap_cons]

/-- Within the lists of all elements the list of one element begins behind those of the elements
before it. -/
theorem getElem?_flatMap_take {f : α → List β} {k : ℕ} (ha : xs[i]? = some a)
    (hk : k < (f a).length) :
    (xs.flatMap f)[((xs.take i).flatMap f).length + k]? = (f a)[k]? := by
  rw [flatMap_eq_append f ha, List.getElem?_append_right (Nat.le_add_right _ _),
    Nat.add_sub_cancel_left, List.getElem?_append_left hk]

/-- An element that a filter keeps stands behind those that it keeps before. -/
theorem getElem?_filter_countP {p : α → Bool} (ha : xs[i]? = some a) (hp : p a = true) :
    (xs.filter p)[(xs.take i).countP p]? = some a := by
  have hfilter : xs.filter p = (xs.take i).filter p ++ a :: (xs.drop (i + 1)).filter p := by
    conv_lhs => rw [eq_take_append_cons_drop ha]
    rw [List.filter_append, List.filter_cons_of_pos hp]
  rw [hfilter, List.countP_eq_length_filter, List.getElem?_append_right le_rfl, Nat.sub_self]
  rfl

/-- What a filter keeps at a place is an element with that many kept elements before it. -/
theorem exists_getElem?_of_filter {p : α → Bool} {n : ℕ} (ha : (xs.filter p)[n]? = some a) :
    ∃ j, xs[j]? = some a ∧ p a = true ∧ (xs.take j).countP p = n := by
  induction xs generalizing n with
  | nil => exact absurd ha (by simp)
  | cons b rest ih =>
    by_cases hb : p b = true
    · rw [List.filter_cons_of_pos hb] at ha
      cases n with
      | zero =>
        obtain rfl := Option.some.inj ha
        exact ⟨0, rfl, hb, rfl⟩
      | succ n =>
        obtain ⟨j, hj, hp, hcount⟩ := ih ha
        exact ⟨j + 1, hj, hp, by rw [List.take_succ_cons, List.countP_cons_of_pos hb, hcount]⟩
    · rw [List.filter_cons_of_neg hb] at ha
      obtain ⟨j, hj, hp, hcount⟩ := ih ha
      exact ⟨j + 1, hj, hp, by rw [List.take_succ_cons, List.countP_cons_of_neg hb, hcount]⟩

theorem exists_mem_of_forall₂ {R : α → β → Prop} {ys : List β} (hR : List.Forall₂ R xs ys) {b : β}
    (hb : b ∈ ys) : ∃ a ∈ xs, R a b := by
  induction hR with
  | nil => exact absurd hb List.not_mem_nil
  | cons hfirst _ ih =>
    rcases List.mem_cons.mp hb with rfl | hb
    · exact ⟨_, List.mem_cons_self, hfirst⟩
    · obtain ⟨a, ha, hab⟩ := ih hb
      exact ⟨a, List.mem_cons_of_mem _ ha, hab⟩

/-- Where no two elements have one key, only the element itself has its key. -/
theorem filter_key_eq_singleton [DecidableEq β] {key : α → β}
    (hxs : xs.Pairwise fun b c ↦ key b ≠ key c) (ha : a ∈ xs) :
    xs.filter (key · = key a) = [a] := by
  induction xs with
  | nil => exact absurd ha List.not_mem_nil
  | cons b rest ih =>
    obtain ⟨hfirst, hrest⟩ := List.pairwise_cons.mp hxs
    rcases List.mem_cons.mp ha with rfl | ha
    · have hnone : rest.filter (key · = key a) = [] := by
        rw [List.filter_eq_nil_iff]
        intro c hc hsame
        exact hfirst c hc (of_decide_eq_true hsame).symm
      rw [List.filter_cons_of_pos (by simp), hnone]
    · rw [List.filter_cons_of_neg (by simpa using hfirst a ha), ih hrest ha]

/-! ### A change at one place -/

section Modify

variable {f : α → α}

/-- What holds of all elements holds still if the change keeps it at its place. -/
theorem forall_mem_modify {p : α → Prop} (hxs : ∀ b ∈ xs, p b)
    (hf : ∀ b, xs[i]? = some b → p (f b)) : ∀ b ∈ xs.modify i f, p b := by
  intro b hmem
  obtain ⟨j, hj⟩ := List.getElem?_of_mem hmem
  rw [List.getElem?_modify] at hj
  obtain ⟨c, hc, hchanged⟩ := Option.map_eq_some_iff.mp hj
  by_cases hij : i = j
  · rw [if_pos hij] at hchanged
    exact hchanged ▸ hf c (hij ▸ hc)
  · rw [if_neg hij] at hchanged
    exact hchanged ▸ hxs c (List.mem_of_getElem? hc)

/-- What holds of the first element, if there is one, holds still if the change keeps it. -/
theorem forall_mem_head?_modify {p : α → Prop} (hxs : ∀ b ∈ xs.head?, p b)
    (hf : ∀ b, xs[i]? = some b → p b → p (f b)) : ∀ b ∈ (xs.modify i f).head?, p b := by
  cases xs with
  | nil =>
    rw [List.modify_nil]
    exact hxs
  | cons first rest =>
    have hfirst : p first := hxs first rfl
    cases i with
    | zero => exact fun b hb ↦ Option.some.inj hb ▸ hf first rfl hfirst
    | succ i => exact fun b hb ↦ Option.some.inj hb ▸ hfirst

/-- A value that the change keeps at its place is the same everywhere. -/
theorem map_modify {g : α → β} (hf : ∀ b, xs[i]? = some b → g (f b) = g b) :
    (xs.modify i f).map g = xs.map g := by
  apply List.ext_getElem?
  intro j
  rw [List.getElem?_map, List.getElem?_map, List.getElem?_modify, Option.map_eq_map,
    Option.map_map]
  refine Option.map_congr fun b hb ↦ ?_
  rw [Function.comp_apply]
  by_cases hij : i = j
  · rw [if_pos hij, hf b (hij ▸ hb)]
  · rw [if_neg hij]

/-- A change at the place of an element leaves what stands before it and behind it. -/
theorem modify_eq_append (ha : xs[i]? = some a) :
    xs.modify i f = xs.take i ++ f a :: xs.drop (i + 1) := by
  obtain ⟨hi, rfl⟩ := List.getElem?_eq_some_iff.mp ha
  exact List.modify_eq_take_cons_drop hi

/-- A changed element, and one that is put behind it. -/
theorem insertIdx_modify (ha : xs[i]? = some a) (b : α) :
    (xs.modify i f).insertIdx (i + 1) b = xs.take i ++ f a :: b :: xs.drop (i + 1) := by
  induction xs generalizing i with
  | nil => simp at ha
  | cons first rest ih =>
    cases i with
    | zero =>
      obtain rfl : first = a := by simpa using ha
      simp
    | succ i =>
      rw [List.getElem?_cons_succ] at ha
      rw [List.modify_succ_cons, List.insertIdx_succ_cons, ih ha, List.take_succ_cons,
        List.drop_succ_cons, List.cons_append]

/-- Behind a list in front, a change finds the place that it has without that list. -/
theorem modify_length_add_append (front back : List α) :
    (front ++ back).modify (front.length + i) f = front ++ back.modify i f := by
  induction front with
  | nil => simp
  | cons first rest ih =>
    rw [List.length_cons, Nat.add_right_comm, List.cons_append, List.modify_succ_cons, ih,
      List.cons_append]

end Modify

/-! ### An element at another place -/

section Move

variable {front middle back : List α} {j : ℕ}

theorem eraseIdx_length_append : (front ++ a :: back).eraseIdx front.length = front ++ back := by
  rw [List.eraseIdx_append_of_length_le le_rfl, Nat.sub_self, List.eraseIdx_cons_zero]

theorem insertIdx_length_append :
    (front ++ back).insertIdx front.length a = front ++ a :: back := by
  induction front with
  | nil => rw [List.nil_append, List.length_nil, List.insertIdx_zero, List.nil_append]
  | cons first front ih =>
    rw [List.cons_append, List.length_cons, List.insertIdx_succ_cons, ih, List.cons_append]

/-- A list is parted at an element and at a place in front of it. -/
theorem exists_eq_append_of_le (ha : xs[j]? = some a) (hij : i ≤ j) :
    ∃ front middle back, xs = front ++ (middle ++ a :: back) ∧ front.length = i ∧
      front.length + middle.length = j := by
  obtain ⟨hj, -⟩ := List.getElem?_eq_some_iff.mp ha
  refine ⟨xs.take i, (xs.take j).drop i, xs.drop (j + 1), ?_, ?_, ?_⟩
  · conv_lhs => rw [eq_take_append_cons_drop ha, ← List.take_append_drop i (xs.take j)]
    rw [List.append_assoc, List.take_take, Nat.min_eq_left hij]
  · rw [List.length_take]
    omega
  · rw [List.length_drop, List.length_take, List.length_take]
    omega

/-- A list is parted at an element and at a place behind it. -/
theorem exists_eq_append_of_lt (ha : xs[i]? = some a) (hij : i < j) (hj : j < xs.length) :
    ∃ front middle back, xs = front ++ a :: (middle ++ back) ∧ front.length = i ∧
      front.length + middle.length = j := by
  refine ⟨xs.take i, (xs.drop (i + 1)).take (j - i), (xs.drop (i + 1)).drop (j - i), ?_, ?_, ?_⟩
  · rw [List.take_append_drop]
    exact eq_take_append_cons_drop ha
  · rw [List.length_take]
    omega
  · rw [List.length_take, List.length_take, List.length_drop]
    omega

theorem rotateRight_append_singleton : (middle ++ [a]).rotateRight 1 = a :: middle := by
  cases middle with
  | nil => rfl
  | cons b middle =>
    have hplace : (b :: middle ++ [a]).length - 1 % (b :: middle ++ [a]).length =
        (b :: middle).length := by
      rw [Nat.mod_eq_of_lt (by simp), List.length_append, List.length_singleton,
        Nat.add_sub_cancel]
    rw [List.rotateRight, if_neg (by simp)]
    dsimp only
    rw [hplace, List.take_left, List.drop_left, List.singleton_append]

theorem rotateLeft_cons : (a :: middle).rotateLeft 1 = middle ++ [a] := by
  cases middle with
  | nil => rfl
  | cons b middle =>
    have hplace : 1 % (a :: b :: middle).length = 1 := Nat.mod_eq_of_lt (by simp)
    rw [List.rotateLeft, if_neg (by simp)]
    dsimp only
    rw [hplace]
    rfl

end Move

/-! ### The end of a list -/

section End

variable {p : α → Bool} {other : List α}

/-- In front of the last run stands nothing, or an element that does not belong to it. -/
theorem exists_eq_append_rtakeWhile (p : α → Bool) (xs : List α) :
    ∃ front, xs = front ++ xs.rtakeWhile p ∧ ∀ a ∈ front.getLast?, p a = false := by
  refine ⟨xs.rdropWhile p, List.rdropWhile_append_rtakeWhile.symm, fun a ha ↦ ?_⟩
  obtain ⟨hne, rfl⟩ := List.mem_getLast?_eq_getLast ha
  simpa using List.rdropWhile_last_not p xs hne

/-- Each run at the end is part of the last run. -/
theorem suffix_rtakeWhile (hsuffix : other <:+ xs) (hother : ∀ a ∈ other, p a = true) :
    other <:+ xs.rtakeWhile p := by
  obtain ⟨front, rfl⟩ := hsuffix
  rw [List.rtakeWhile, List.reverse_append,
    List.takeWhile_append_of_pos fun a ha ↦ hother a (List.mem_reverse.mp ha), List.reverse_append,
    List.reverse_reverse]
  exact List.suffix_append _ _

/-- Elements that are no separators are added to the last piece. -/
theorem splitOn_append_of_notMem [BEq α] [LawfulBEq α] {separator : α} {more : List α}
    (hmore : separator ∉ more) (xs : List α) :
    ∃ pieces last, xs.splitOn separator = pieces ++ [last] ∧
      (xs ++ more).splitOn separator = pieces ++ [last ++ more] := by
  induction xs with
  | nil => exact ⟨[], [], List.splitOn_nil _, List.splitOn_eq_singleton hmore⟩
  | cons a xs ih =>
    obtain ⟨pieces, last, hxs, hlonger⟩ := ih
    rw [List.cons_append, List.splitOn_cons_eq_if_modifyHead, List.splitOn_cons_eq_if_modifyHead,
      hxs, hlonger]
    split
    · exact ⟨[] :: pieces, last, rfl, rfl⟩
    · cases pieces with
      | nil => exact ⟨[], a :: last, rfl, rfl⟩
      | cons piece pieces => exact ⟨(a :: piece) :: pieces, last, rfl, rfl⟩

end End

end KanaKanji.Lists
