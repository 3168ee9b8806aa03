import Mathlib
import KanaKanji.Ranking

/-!
# Stable ranking

What sorting by a key keeps: the elements (`mem_sortOn`), the order of those with one key
(`filter_sortOn`), and with it any order that the list had (`pairwise_sortOn_and`). Keeping the
first element of each kind is erasing all that repeat the kind of one before
(`firstOfEach_eq_eraseDupsBy`). No kind is then there twice (`nodup_map_firstOfEach`), and each kind
is there with what came first (`exists_mem_firstOfEach`), in a sorted list with the least
(`exists_le_of_mem_sortOn`). After sorting, what is kept can be told from the list as it was: it is
the least of its kind, and of those as low the first (`mem_firstOfEach_sortOn_iff`).
-/

set_option autoImplicit false

namespace KanaKanji.Ranking

variable {α β : Type}

theorem mem_sortOn [LE β] [DecidableLE β] {key : α → β} {xs : List α} {a : α} :
    a ∈ sortOn key xs ↔ a ∈ xs :=
  List.mem_mergeSort

section Order

variable [LE β] [DecidableLE β] [Std.IsLinearOrder β]

/-- Sorted elements ascend. -/
theorem pairwise_sortOn (key : α → β) (xs : List α) :
    (sortOn key xs).Pairwise fun a b ↦ key a ≤ key b := by
  have hsorted : (sortOn key xs).Pairwise fun a b ↦ decide (key a ≤ key b) = true := by
    refine List.pairwise_mergeSort (fun a b c hab hbc ↦ ?_) (fun a b ↦ ?_) xs
    · simp only [decide_eq_true_eq] at hab hbc ⊢
      exact Std.le_trans hab hbc
    · simpa using Std.le_total
  exact hsorted.imp of_decide_eq_true

/-- Elements that ascend already come in their order, also between others. -/
theorem sublist_sortOn {key : α → β} {xs ys : List α} (hsublist : ys.Sublist xs)
    (hys : ys.Pairwise fun a b ↦ key a ≤ key b) : ys.Sublist (sortOn key xs) := by
  refine List.sublist_mergeSort (fun a b c hab hbc ↦ ?_) (fun a b ↦ ?_)
    (hys.imp decide_eq_true) hsublist
  · simp only [decide_eq_true_eq] at hab hbc ⊢
    exact Std.le_trans hab hbc
  · simpa using Std.le_total

variable [DecidableEq β]

/-- The elements with one key keep their order. -/
theorem filter_sortOn (key : α → β) (xs : List α) (k : β) :
    (sortOn key xs).filter (key · = k) = xs.filter (key · = k) := by
  have hequal : (xs.filter (key · = k)).Pairwise fun a b ↦ key a ≤ key b := by
    refine List.pairwise_filter.mpr (List.pairwise_of_forall fun a b ha hb ↦ ?_)
    rw [of_decide_eq_true ha, of_decide_eq_true hb]
    exact Std.le_refl k
  have hsublist := (sublist_sortOn List.filter_sublist hequal).filter (key · = k)
  simp only [List.filter_filter, Bool.and_self] at hsublist
  have hperm := (List.mergeSort_perm xs fun a b ↦ decide (key a ≤ key b)).filter (key · = k)
  exact (hsublist.eq_of_length hperm.length_eq.symm).symm

/-- Sorting keeps an order of the list among elements with one key. -/
theorem pairwise_sortOn_and {R : α → α → Prop} {key : α → β} {xs : List α}
    (hxs : xs.Pairwise R) :
    (sortOn key xs).Pairwise fun a b ↦ key a ≤ key b ∧ (key a = key b → R a b) := by
  rw [List.pairwise_iff_forall_sublist]
  intro a b hsublist
  refine ⟨List.pairwise_iff_forall_sublist.mp (pairwise_sortOn key xs) hsublist, fun hkey ↦ ?_⟩
  have hfiltered := hsublist.filter (key · = key b)
  rw [filter_sortOn, List.filter_cons_of_pos (by simpa using hkey),
    List.filter_cons_of_pos (by simp)] at hfiltered
  exact List.pairwise_iff_forall_sublist.mp hxs (hfiltered.trans List.filter_sublist)

end Order

theorem mem_of_mem_firstOfEach [DecidableEq β] {key : α → β} {xs : List α} {a : α}
    (hmem : a ∈ firstOfEach key xs) : a ∈ xs := by
  induction xs with
  | nil => exact hmem
  | cons x xs ih =>
    rw [firstOfEach, List.mem_cons] at hmem
    rcases hmem with rfl | hrest
    · exact List.mem_cons_self
    · exact List.mem_cons_of_mem _ (ih (List.mem_of_mem_filter hrest))

section FirstOfEach

variable [DecidableEq β] (key : α → β)

/-- It is the same to leave kinds out before or after keeping the first of each. -/
theorem filter_firstOfEach (p : β → Bool) (xs : List α) :
    (firstOfEach key xs).filter (p ∘ key) = firstOfEach key (xs.filter (p ∘ key)) := by
  induction xs with
  | nil => rfl
  | cons a xs ih =>
    by_cases hp : (p ∘ key) a = true
    · rw [firstOfEach, List.filter_cons_of_pos hp, List.filter_cons_of_pos hp, firstOfEach, ← ih,
        List.filter_filter, List.filter_filter]
      simp only [Bool.and_comm]
    · rw [firstOfEach, List.filter_cons_of_neg hp, List.filter_cons_of_neg hp, ← ih,
        List.filter_filter]
      refine List.filter_congr fun b _ ↦ ?_
      rw [Function.comp_apply, Bool.and_eq_left_iff_imp]
      intro hb
      rw [decide_eq_true_eq]
      intro hsame
      rw [Function.comp_apply, ← hsame] at hp
      exact hp hb

theorem firstOfEach_eq_eraseDupsBy (xs : List α) :
    firstOfEach key xs = xs.eraseDupsBy fun a b ↦ key a == key b := by
  induction hn : xs.length using Nat.strong_induction_on generalizing xs with
  | _ n ih =>
    cases xs with
    | nil => rfl
    | cons a xs =>
      have hfilter : (xs.filter fun b ↦ (key b == key a) = false) =
          xs.filter ((fun k ↦ decide (k ≠ key a)) ∘ key) :=
        List.filter_congr fun b _ ↦ by simp
      have hshorter : (xs.filter ((fun k ↦ decide (k ≠ key a)) ∘ key)).length < n := by
        rw [← hn, List.length_cons]
        exact Nat.lt_succ_of_le (List.length_filter_le _ _)
      rw [List.eraseDupsBy_cons, hfilter, ← ih _ hshorter _ rfl, ← filter_firstOfEach, firstOfEach]
      rfl

theorem firstOfEach_sublist (xs : List α) : (firstOfEach key xs).Sublist xs := by
  induction xs with
  | nil => exact List.Sublist.refl _
  | cons a xs ih => exact (List.filter_sublist.trans ih).cons_cons a

/-- No kind is there twice. -/
theorem nodup_map_firstOfEach (xs : List α) : ((firstOfEach key xs).map key).Nodup := by
  induction xs with
  | nil => exact List.nodup_nil
  | cons a xs ih =>
    rw [firstOfEach, List.map_cons, List.nodup_cons]
    refine ⟨fun hmem ↦ ?_, ih.sublist (List.filter_sublist.map key)⟩
    obtain ⟨b, hb, hsame⟩ := List.mem_map.mp hmem
    exact of_decide_eq_true (List.mem_filter.mp hb).2 hsame

variable {key}

/-- An element is kept, or one of its kind that comes before it. -/
theorem exists_mem_firstOfEach {R : α → α → Prop} {xs : List α} (hxs : xs.Pairwise R) {a : α}
    (ha : a ∈ xs) : ∃ b ∈ firstOfEach key xs, key b = key a ∧ (b = a ∨ R b a) := by
  induction xs with
  | nil => exact absurd ha List.not_mem_nil
  | cons x xs ih =>
    obtain ⟨hfirst, hrest⟩ := List.pairwise_cons.mp hxs
    rw [firstOfEach]
    rcases List.mem_cons.mp ha with rfl | ha
    · exact ⟨a, List.mem_cons_self, rfl, .inl rfl⟩
    by_cases hsame : key x = key a
    · exact ⟨x, List.mem_cons_self, hsame, .inr (hfirst a ha)⟩
    · obtain ⟨b, hb, hkey, hbefore⟩ := ih hrest ha
      refine ⟨b, List.mem_cons_of_mem _ (List.mem_filter.mpr ⟨hb, ?_⟩), hkey, hbefore⟩
      rw [hkey]
      exact decide_eq_true (Ne.symm hsame)

/-- What is kept is the first of its kind. -/
theorem mem_firstOfEach_iff {xs : List α} {a : α} :
    a ∈ firstOfEach key xs ↔ xs.find? (key · = key a) = some a := by
  induction xs with
  | nil => simp [firstOfEach]
  | cons x xs ih =>
    rw [firstOfEach, List.mem_cons, List.mem_filter, decide_eq_true_eq, ih]
    by_cases hsame : key x = key a
    · rw [List.find?_cons_of_pos (by simpa using hsame), Option.some.injEq]
      constructor
      · rintro (rfl | ⟨-, hne⟩)
        · rfl
        · exact absurd hsame.symm hne
      · exact fun hx ↦ .inl hx.symm
    · rw [List.find?_cons_of_neg (by simpa using hsame)]
      constructor
      · rintro (rfl | ⟨hfirst, -⟩)
        · exact absurd rfl hsame
        · exact hfirst
      · exact fun hfirst ↦ .inr ⟨hfirst, Ne.symm hsame⟩

/-- As many are kept as there are kinds. -/
theorem length_firstOfEach (key : α → β) (xs : List α) :
    (firstOfEach key xs).length = (xs.map key).toFinset.card := by
  have hkinds : (xs.map key).toFinset = ((firstOfEach key xs).map key).toFinset := by
    ext kind
    simp only [List.mem_toFinset, List.mem_map]
    constructor
    · rintro ⟨a, ha, rfl⟩
      have hxs : xs.Pairwise fun _ _ ↦ True := List.pairwise_of_forall fun _ _ ↦ trivial
      obtain ⟨b, hb, hkey, -⟩ : ∃ b ∈ firstOfEach key xs, key b = key a ∧ (b = a ∨ True) :=
        exists_mem_firstOfEach hxs ha
      exact ⟨b, hb, hkey⟩
    · rintro ⟨a, ha, rfl⟩
      exact ⟨a, mem_of_mem_firstOfEach ha, rfl⟩
  rw [hkinds, List.toFinset_card_of_nodup (nodup_map_firstOfEach key xs), List.length_map]

end FirstOfEach

/-- Of sorted elements each kind keeps one with the least key. -/
theorem exists_le_of_mem_sortOn [DecidableEq β] {γ : Type} [LE γ] [DecidableLE γ]
    [Std.IsLinearOrder γ] {kind : α → β} {key : α → γ} {xs : List α} {a : α} (ha : a ∈ xs) :
    ∃ b ∈ firstOfEach kind (sortOn key xs), kind b = kind a ∧ key b ≤ key a := by
  obtain ⟨b, hb, hkind, hbefore⟩ : ∃ b ∈ firstOfEach kind (sortOn key xs),
      kind b = kind a ∧ (b = a ∨ key b ≤ key a) :=
    exists_mem_firstOfEach (pairwise_sortOn key xs) (mem_sortOn.mpr ha)
  refine ⟨b, hb, hkind, ?_⟩
  rcases hbefore with rfl | hle
  · exact Std.le_refl _
  · exact hle

section Least

variable [DecidableEq β] {γ : Type} [LE γ] [DecidableLE γ] [Std.IsLinearOrder γ] [DecidableEq γ]
  {kind : α → β} {key : α → γ} {xs : List α} {a : α}

/-- Sorting keeps what comes first of those with one kind and one key. -/
theorem find?_sortOn (k : β) (least : γ) :
    (sortOn key xs).find? (fun b ↦ kind b = k ∧ key b = least) =
      xs.find? fun b ↦ kind b = k ∧ key b = least := by
  have hsame := congrArg (List.find? (kind · = k)) (filter_sortOn key xs least)
  simpa only [List.find?_filter, decide_eq_true_eq, and_comm] using hsame

/-- What sorting and keeping the first of each kind leaves: of its kind none is less, and of those
as low it came first. -/
theorem mem_firstOfEach_sortOn_iff :
    a ∈ firstOfEach kind (sortOn key xs) ↔
      (∀ b ∈ xs, kind b = kind a → key a ≤ key b) ∧
        xs.find? (fun b ↦ kind b = kind a ∧ key b = key a) = some a := by
  have hleft : ∀ a ∈ firstOfEach kind (sortOn key xs),
      (∀ b ∈ xs, kind b = kind a → key a ≤ key b) ∧
        xs.find? (fun b ↦ kind b = kind a ∧ key b = key a) = some a := by
    intro a ha
    constructor
    · intro b hb hkind
      obtain ⟨c, hc, hsame, hle⟩ : ∃ c ∈ firstOfEach kind (sortOn key xs),
          kind c = kind b ∧ key c ≤ key b := exists_le_of_mem_sortOn hb
      obtain rfl := List.inj_on_of_nodup_map (nodup_map_firstOfEach kind _) hc ha
        (hsame.trans hkind)
      exact hle
    · rw [← find?_sortOn]
      have hfirst := mem_firstOfEach_iff.mp ha
      obtain ⟨-, front, back, hsorted, hfront⟩ := List.find?_eq_some_iff_append.mp hfirst
      refine List.find?_eq_some_iff_append.mpr ⟨by simp, front, back, hsorted, fun b hb ↦ ?_⟩
      have hne := hfront b hb
      simp only [Bool.not_eq_eq_eq_not, Bool.not_true, decide_eq_false_iff_not] at hne ⊢
      exact fun hboth ↦ hne hboth.1
  refine ⟨hleft a, fun ⟨hleast, hfirst⟩ ↦ ?_⟩
  have ha := List.mem_of_find?_eq_some hfirst
  obtain ⟨b, hb, hkind, hle⟩ : ∃ b ∈ firstOfEach kind (sortOn key xs),
      kind b = kind a ∧ key b ≤ key a := exists_le_of_mem_sortOn ha
  obtain ⟨-, hbfirst⟩ := hleft b hb
  have hkey : key b = key a :=
    Std.le_antisymm hle (hleast b (List.mem_of_find?_eq_some hbfirst) hkind)
  rw [hkind, hkey, hfirst] at hbfirst
  exact Option.some.inj hbfirst ▸ hb

end Least
end KanaKanji.Ranking
