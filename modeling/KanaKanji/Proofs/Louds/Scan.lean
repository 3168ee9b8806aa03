import Mathlib
import KanaKanji.Louds.Expansion

/-!
# Scanning keys with a visitor

A visitor that is shown matches one after another may cull a match or stop (`scan`): after it has
culled a match, those whose keys go on from the key of that match are left out, and after it has
stopped nothing more is shown to it. The scan knows nothing of a trie; all that it looks at are the
keys that were culled.

So a culled key is of no account for keys that do not go on from it. Two rows of matches are scanned
one after the other if no key of the first goes on in the second (`scanFrom_append`), and a match
that all others go on from decides alone whether they are shown (`scanFrom_cons_of_goesOn`). With
these a search that runs over rows of matches until it is stopped is a scan of all of them
(`untilStopped_eq_scanFrom`).
-/

set_option autoImplicit false

namespace KanaKanji.Louds

variable {σ : Type}

/-- A key goes on from another one if it begins with it and is longer. -/
def GoesOn (other key : Key) : Prop := other <+: key ∧ other ≠ key

instance (other key : Key) : Decidable (GoesOn other key) :=
  inferInstanceAs (Decidable (other <+: key ∧ other ≠ key))

/-- Shows matches to a visitor, except for those that go on from culled keys: the last state, and
whether the visitor stopped. -/
def scanFrom (visit : Visitor σ) : (culled : List Key) → List PredictiveMatch → σ → σ × Bool
  | _, [], s => (s, false)
  | culled, found :: rest, s =>
    if ∃ key ∈ culled, GoesOn key found.key then scanFrom visit culled rest s
    else
      match visit s found with
      | (s, .goOn) => scanFrom visit culled rest s
      | (s, .cull) => scanFrom visit (found.key :: culled) rest s
      | (s, .done) => (s, true)

/-- The state of a visitor that was shown matches, one after another. -/
def scan (visit : Visitor σ) (listed : List PredictiveMatch) (s : σ) : σ :=
  (scanFrom visit [] listed s).1

/-! ### Culled keys -/

variable {visit : Visitor σ} {culled : List Key}

/-- Of the culled keys only those count that some match goes on from. -/
theorem scanFrom_congr {culled' : List Key} {listed : List PredictiveMatch}
    (hculled : ∀ found ∈ listed,
      (∃ key ∈ culled, GoesOn key found.key) ↔ ∃ key ∈ culled', GoesOn key found.key) (s : σ) :
    scanFrom visit culled listed s = scanFrom visit culled' listed s := by
  induction listed generalizing culled culled' s with
  | nil => rfl
  | cons found rest ih =>
    obtain ⟨hfound, hrest⟩ := List.forall_mem_cons.mp hculled
    rw [scanFrom, scanFrom]
    by_cases hleft : ∃ key ∈ culled, GoesOn key found.key
    · rw [if_pos hleft, if_pos (hfound.mp hleft)]
      exact ih hrest s
    rw [if_neg hleft, if_neg (mt hfound.mpr hleft)]
    rcases visit s found with ⟨s, _ | _ | _⟩
    · exact ih hrest s
    · refine ih (fun other hother ↦ ?_) s
      rw [List.exists_mem_cons_iff, List.exists_mem_cons_iff, hrest other hother]
    · rfl

/-- Matches that go on from culled keys are not shown. -/
theorem scanFrom_of_goesOn {listed : List PredictiveMatch}
    (hculled : ∀ found ∈ listed, ∃ key ∈ culled, GoesOn key found.key) (s : σ) :
    scanFrom visit culled listed s = (s, false) := by
  induction listed with
  | nil => rfl
  | cons found rest ih =>
    obtain ⟨hfound, hrest⟩ := List.forall_mem_cons.mp hculled
    rw [scanFrom, if_pos hfound, ih hrest]

/-- A match that all the others go on from decides whether they are shown. -/
theorem scanFrom_cons_of_goesOn {found : PredictiveMatch} {below : List PredictiveMatch}
    (hbelow : ∀ other ∈ below, GoesOn found.key other.key) (s : σ) :
    scanFrom visit [] (found :: below) s =
      match visit s found with
      | (s, .goOn) => scanFrom visit [] below s
      | (s, .cull) => (s, false)
      | (s, .done) => (s, true) := by
  rw [scanFrom, if_neg (by simp)]
  rcases visit s found with ⟨s, _ | _ | _⟩
  · rfl
  · exact scanFrom_of_goesOn (fun other hother ↦ ⟨_, List.mem_cons_self, hbelow other hother⟩) s
  · rfl

/-! ### Rows of matches -/

/-- Rows of matches are scanned one after the other if the keys of the first do not go on in the
second. -/
theorem scanFrom_append {listed others : List PredictiveMatch}
    (hapart : ∀ found ∈ listed, ∀ other ∈ others, ¬ GoesOn found.key other.key) (s : σ) :
    scanFrom visit culled (listed ++ others) s =
      match scanFrom visit culled listed s with
      | (s, true) => (s, true)
      | (s, false) => scanFrom visit culled others s := by
  induction listed generalizing culled s with
  | nil => rfl
  | cons found rest ih =>
    obtain ⟨hfound, hrest⟩ := List.forall_mem_cons.mp hapart
    rw [List.cons_append, scanFrom, scanFrom]
    split
    · exact ih hrest s
    rcases visit s found with ⟨s, _ | _ | _⟩
    · exact ih hrest s
    · -- Once the row is over, what was culled in it is of no account.
      have hlater : ∀ s, scanFrom visit (found.key :: culled) others s =
          scanFrom visit culled others s := by
        refine fun s ↦ scanFrom_congr (fun other hother ↦ ?_) s
        rw [List.exists_mem_cons_iff, or_iff_right (hfound other hother)]
      dsimp only
      rw [ih hrest s]
      simp only [hlater]
    · rfl

/-- Steps that each scan a row of matches, run until one of them stops, scan all rows. -/
theorem untilStopped_eq_scanFrom {α : Type} {step : σ → α → σ × Bool}
    {row : α → List PredictiveMatch} {xs : List α}
    (hstep : ∀ a ∈ xs, ∀ s, step s a = scanFrom visit [] (row a) s)
    (hapart : xs.Pairwise fun a b ↦ ∀ found ∈ row a, ∀ other ∈ row b, ¬ GoesOn found.key other.key)
    (s : σ) : untilStopped step s xs = scanFrom visit [] (xs.flatMap row) s := by
  induction xs generalizing s with
  | nil => rfl
  | cons a rest ih =>
    obtain ⟨hfirst, hrest⟩ := List.forall_mem_cons.mp hstep
    obtain ⟨hapartFirst, hapartRest⟩ := List.pairwise_cons.mp hapart
    have hlater : ∀ found ∈ row a, ∀ other ∈ rest.flatMap row, ¬ GoesOn found.key other.key := by
      intro found hfound other hother
      obtain ⟨b, hb, hother⟩ := List.mem_flatMap.mp hother
      exact hapartFirst b hb found hfound other hother
    rw [untilStopped, List.flatMap_cons, scanFrom_append hlater, hfirst]
    rcases scanFrom visit [] (row a) s with ⟨s, _ | _⟩
    · exact ih hrest hapartRest s
    · rfl

/-- A visitor that always goes on is shown all matches. -/
theorem scan_of_goOn (hvisit : ∀ s found, (visit s found).2 = .goOn)
    (listed : List PredictiveMatch) (s : σ) :
    scan visit listed s = listed.foldl (fun s found ↦ (visit s found).1) s := by
  induction listed generalizing s with
  | nil => rfl
  | cons found rest ih =>
    rw [scan, scanFrom, if_neg (by simp), List.foldl_cons, ← ih, scan]
    have hgoOn : visit s found = ((visit s found).1, .goOn) := Prod.ext rfl (hvisit s found)
    rw [hgoOn]

end KanaKanji.Louds
