import Mathlib
import KanaKanji.Proofs.Conversion.Splitting

/-!
# Settled segments

Converting a second time changes nothing. What it leaves is settled (`Settled`): runs of free
segments, each of them what its joined key is split into, with segments between them that have their
boundary or their value from the user. Converting makes any segments settled (`settled_reconvert`)
and keeps those that are (`Settled.reconvert_eq`).

Settled segments can be taken apart at any boundary, also within a run of free segments
(`Settled.of_append`), since a split key is split into the same pieces on both sides. They can be
put together again around a segment that is not free (`Settled.append_cons`).
-/

set_option autoImplicit false

namespace KanaKanji.Converter

open Segments (keyOf)

variable (c : Converter) (request : ConversionRequest) (limit : ℕ)

/-! ### Converting a row of segments -/

/-- The converted segments of a row; `key` is the joined key of the free segments before them. -/
def reconvert (key : String) (segments : List Segment) : List Segment :=
  (c.rebuild request key segments).map (c.polish request limit)

/-- The converted segments of a free run with the joined key. -/
def freshRun (key : String) : List Segment := c.reconvert request limit key []

/-- A segment with new candidates, unless its value is chosen. -/
def refresh (s : Segment) : Segment :=
  if s.type = .free ∨ s.type = .fixedBoundary then c.polish request limit (c.fill request s) else s

theorem convert_eq (s : Segments) :
    c.convert request s =
      s.withConversion (c.reconvert request s.maxConversionCandidates "" s.conversionSegments) :=
  rfl

theorem freshRun_eq (key : String) :
    c.freshRun request limit key = (splitBy (c.prefixSearch request) [] key.toList).map
      fun piece ↦ c.refresh request limit (.new (String.ofList piece) .free) := by
  rw [freshRun, reconvert, rebuild, freshSegments, splitKey, List.map_map, List.map_map]
  rfl

theorem freshRun_empty : c.freshRun request limit "" = [] := by
  rw [freshRun_eq, String.toList_empty, splitBy_nil]
  rfl

/-- The key of a free segment is joined with the keys before it. -/
theorem reconvert_cons_free {s : Segment} (hfree : s.type = .free) (key : String)
    (rest : List Segment) :
    c.reconvert request limit key (s :: rest) = c.reconvert request limit (key ++ s.key) rest := by
  rw [reconvert, rebuild]
  simp only [hfree]
  rfl

/-- Any other segment ends the run before it. -/
theorem reconvert_cons {s : Segment} (hkept : s.type ≠ .free) (key : String)
    (rest : List Segment) :
    c.reconvert request limit key (s :: rest) =
      c.freshRun request limit key ++
        c.refresh request limit s :: c.reconvert request limit "" rest := by
  rw [reconvert, rebuild]
  split
  · next hfree => exact absurd hfree hkept
  · next hfixed =>
    rw [refresh, if_pos (.inr hfixed), List.map_append, List.map_cons]
    rfl
  · next hfixed =>
    have hpolished : c.polish request limit s = s := by
      rw [polish]
      split
      · next hfree => exact absurd hfree hkept
      · next hfixed' => exact absurd hfixed' hfixed
      · rfl
    rw [refresh, if_neg (not_or.mpr ⟨hkept, hfixed⟩), List.map_append, List.map_cons, hpolished]
    rfl

/-- A segment that is not free parts a row in two that are converted by themselves. -/
theorem reconvert_append_cons {s : Segment} (hkept : s.type ≠ .free) (key : String)
    (front back : List Segment) :
    c.reconvert request limit key (front ++ s :: back) =
      c.reconvert request limit key front ++
        c.refresh request limit s :: c.reconvert request limit "" back := by
  induction front generalizing key with
  | nil => exact c.reconvert_cons request limit hkept key back
  | cons first front ih =>
    rw [List.cons_append]
    by_cases hfree : first.type = .free
    · rw [reconvert_cons_free _ _ _ hfree, reconvert_cons_free _ _ _ hfree, ih]
    · rw [reconvert_cons _ _ _ hfree, reconvert_cons _ _ _ hfree, ih, List.append_assoc,
        List.cons_append]

/-- Segments that are not free are converted one by one. -/
theorem reconvert_append_of_kept {front : List Segment} (hkept : ∀ s ∈ front, s.type ≠ .free)
    (back : List Segment) :
    c.reconvert request limit "" (front ++ back) =
      front.map (c.refresh request limit) ++ c.reconvert request limit "" back := by
  induction front with
  | nil => rfl
  | cons first front ih =>
    obtain ⟨hfirst, hfront⟩ := List.forall_mem_cons.mp hkept
    rw [List.cons_append, reconvert_cons _ _ _ hfirst, freshRun_empty, ih hfront]
    rfl

/-- Free segments are converted by their joined key. -/
theorem reconvert_of_free {run : List Segment} (hfree : ∀ s ∈ run, s.type = .free) (key : String) :
    c.reconvert request limit key run = c.freshRun request limit (key ++ keyOf run) := by
  induction run generalizing key with
  | nil => rw [freshRun, Segments.keyOf_nil, String.append_empty]
  | cons first run ih =>
    obtain ⟨hfirst, hrun⟩ := List.forall_mem_cons.mp hfree
    rw [reconvert_cons_free _ _ _ hfirst, ih hrun, Segments.keyOf_cons, String.append_assoc]

/-- Of a free segment only the key counts. -/
theorem reconvert_append_congr {s t : Segment} (hs : s.type = .free) (ht : t.type = .free)
    (hkey : s.key = t.key) (key : String) (front back : List Segment) :
    c.reconvert request limit key (front ++ s :: back) =
      c.reconvert request limit key (front ++ t :: back) := by
  induction front generalizing key with
  | nil =>
    rw [List.nil_append, List.nil_append, reconvert_cons_free _ _ _ hs,
      reconvert_cons_free _ _ _ ht, hkey]
  | cons first front ih =>
    rw [List.cons_append, List.cons_append]
    by_cases hfree : first.type = .free
    · rw [reconvert_cons_free _ _ _ hfree, reconvert_cons_free _ _ _ hfree, ih]
    · rw [reconvert_cons _ _ _ hfree, reconvert_cons _ _ _ hfree, ih]

/-- Filling a segment depends on its key and its type only. -/
theorem fill_congr {s t : Segment} (hkey : s.key = t.key) (htype : s.type = t.type) :
    c.fill request s = c.fill request t := by
  simp only [fill, hkey, htype]

section Respectful

variable {c} (hrespectful : ∀ r ∈ c.rewriters, r.Respectful)

include hrespectful

theorem key_refresh (s : Segment) :
    (c.refresh request limit s).key = s.key ∧ (c.refresh request limit s).type = s.type := by
  rw [refresh]
  split
  · exact key_polish request hrespectful limit (c.fill request s)
  · exact ⟨rfl, rfl⟩

/-- A segment gets the same candidates another time. -/
theorem refresh_refresh (s : Segment) :
    c.refresh request limit (c.refresh request limit s) = c.refresh request limit s := by
  obtain ⟨hkey, htype⟩ := key_refresh request limit hrespectful s
  by_cases hopen : s.type = .free ∨ s.type = .fixedBoundary
  · rw [refresh, htype, if_pos hopen, c.fill_congr request hkey htype, refresh, if_pos hopen]
  · have hchosen : c.refresh request limit s = s := if_neg hopen
    rw [hchosen, hchosen]

theorem keyOf_reconvert (key : String) (segments : List Segment) :
    keyOf (c.reconvert request limit key segments) = key ++ keyOf segments := by
  rw [reconvert, Segments.keyOf_map fun s ↦ (key_polish request hrespectful limit s).1,
    keyOf_rebuild]

theorem keyOf_freshRun (key : String) : keyOf (c.freshRun request limit key) = key := by
  rw [freshRun, keyOf_reconvert request limit hrespectful, Segments.keyOf_nil, String.append_empty]

theorem type_of_mem_freshRun {key : String} {s : Segment}
    (hmem : s ∈ c.freshRun request limit key) : s.type = .free := by
  rw [freshRun_eq] at hmem
  obtain ⟨piece, -, rfl⟩ := List.mem_map.mp hmem
  exact (key_refresh request limit hrespectful _).2

/-- Converting leaves open segments open. -/
theorem open_of_mem_reconvert {segments : List Segment}
    (hopen : ∀ s ∈ segments, Segments.committed s = false) (key : String) :
    ∀ s ∈ c.reconvert request limit key segments, Segments.committed s = false := by
  intro s hmem
  obtain ⟨t, ht, rfl⟩ := List.mem_map.mp hmem
  rw [Segments.committed, (key_polish request hrespectful limit t).2]
  exact c.open_of_mem_rebuild request hopen ht

end Respectful

/-! ### Settled segments -/

/-- Runs of free segments that are what their key is split into, parted by segments that are not
free and that are as converting leaves them. -/
inductive Settled : List Segment → Prop
  | run (key : String) : Settled (c.freshRun request limit key)
  | cons (key : String) {s : Segment} {rest : List Segment} (hkept : s.type ≠ .free)
      (hrefresh : c.refresh request limit s = s) (hrest : Settled rest) :
      Settled (c.freshRun request limit key ++ s :: rest)

namespace Settled

variable {c request limit} {front back : List Segment}

/-- A row that begins with a segment that is not free has an empty run in front. -/
theorem cons_of_kept {s : Segment} (hkept : s.type ≠ .free)
    (hrefresh : c.refresh request limit s = s) (hback : c.Settled request limit back) :
    c.Settled request limit (s :: back) := by
  have hcons := Settled.cons "" hkept hrefresh hback
  rwa [freshRun_empty] at hcons

/-- Around a segment that is not free, settled rows make up a settled row. -/
theorem append_cons (hfront : c.Settled request limit front) {s : Segment} (hkept : s.type ≠ .free)
    (hrefresh : c.refresh request limit s = s) (hback : c.Settled request limit back) :
    c.Settled request limit (front ++ s :: back) := by
  induction hfront with
  | run key => exact .cons key hkept hrefresh hback
  | cons key hkept' hrefresh' _ ih =>
    rw [List.append_assoc, List.cons_append]
    exact .cons key hkept' hrefresh' ih

/-- A settled row of free segments is what its key is split into. -/
theorem eq_freshRun_of_free (hrespectful : ∀ r ∈ c.rewriters, r.Respectful)
    {segments : List Segment} (hsettled : c.Settled request limit segments)
    (hfree : ∀ s ∈ segments, s.type = .free) :
    segments = c.freshRun request limit (keyOf segments) := by
  cases hsettled with
  | run key => rw [keyOf_freshRun request limit hrespectful]
  | @cons key s rest hkept _ _ =>
    exact absurd (hfree s (List.mem_append_right _ List.mem_cons_self)) hkept

/-- Converting does not change what is settled. -/
theorem reconvert_eq (hrespectful : ∀ r ∈ c.rewriters, r.Respectful) {segments : List Segment}
    (hsettled : c.Settled request limit segments) :
    c.reconvert request limit "" segments = segments := by
  have hfresh : ∀ key, c.reconvert request limit "" (c.freshRun request limit key) =
      c.freshRun request limit key := by
    intro key
    rw [reconvert_of_free _ _ _ fun _ ↦ type_of_mem_freshRun request limit hrespectful,
      keyOf_freshRun request limit hrespectful, String.empty_append]
  induction hsettled with
  | run key => exact hfresh key
  | cons key hkept hrefresh _ ih => rw [reconvert_append_cons _ _ _ hkept, hfresh, hrefresh, ih]

end Settled

/-- What is converted is settled. -/
theorem settled_reconvert (hrespectful : ∀ r ∈ c.rewriters, r.Respectful) (key : String)
    (segments : List Segment) :
    c.Settled request limit (c.reconvert request limit key segments) := by
  induction segments generalizing key with
  | nil => exact .run key
  | cons first rest ih =>
    by_cases hfree : first.type = .free
    · rw [reconvert_cons_free _ _ _ hfree]
      exact ih _
    · rw [reconvert_cons _ _ _ hfree]
      refine .cons key ?_ (refresh_refresh request limit hrespectful first) (ih "")
      rwa [(key_refresh request limit hrespectful first).2]

/-! ### Taking a row apart -/

section Cut

variable {c request limit} {segments front back : List Segment}
  (hrespectful : ∀ r ∈ c.rewriters, r.Respectful)
  (hsearch : DependsOnFront (c.prefixSearch request))

include hrespectful hsearch

/-- Cut at a boundary, the segments of a free run are those of two shorter runs. -/
theorem eq_freshRun_of_append {key : String}
    (happend : c.freshRun request limit key = front ++ back) :
    front = c.freshRun request limit (keyOf front) ∧
      back = c.freshRun request limit (keyOf back) := by
  rw [freshRun_eq] at happend
  obtain ⟨first, others, hpieces, rfl, rfl⟩ := List.map_eq_append_iff.mp happend
  have hkey : ∀ piece, (c.refresh request limit (.new piece .free)).key = piece := fun piece ↦
    (key_refresh request limit hrespectful _).1
  have hwhole : (first ++ others).flatten = key.toList := by
    rw [← hpieces, flatten_splitBy, List.nil_append]
  rw [← hwhole] at hpieces
  obtain ⟨hfirst, hothers⟩ := splitBy_flatten_of_append hsearch hpieces
  rw [freshRun_eq, freshRun_eq, keyOf_pieces hkey, keyOf_pieces hkey, String.toList_ofList,
    String.toList_ofList, hfirst, hothers]
  exact ⟨rfl, rfl⟩

/-- Cut at any boundary, a settled row makes two settled rows. -/
theorem Settled.of_append (hsettled : c.Settled request limit (front ++ back)) :
    c.Settled request limit front ∧ c.Settled request limit back := by
  generalize hrow : front ++ back = row at hsettled
  induction hsettled generalizing front with
  | run key =>
    obtain ⟨hfront, hback⟩ := eq_freshRun_of_append hrespectful hsearch hrow.symm
    rw [hfront, hback]
    exact ⟨.run _, .run _⟩
  | @cons key s rest hkept hrefresh hrest ih =>
    rcases List.append_eq_append_iff.mp hrow with ⟨rest', hrun, rfl⟩ | ⟨front', rfl, hcons⟩
    · obtain ⟨hfront, hrest'⟩ := eq_freshRun_of_append hrespectful hsearch hrun
      rw [hfront, hrest']
      exact ⟨.run _, .cons _ hkept hrefresh hrest⟩
    · rcases List.cons_eq_append_iff.mp hcons with ⟨rfl, rfl⟩ | ⟨front'', rfl, rfl⟩
      · rw [List.append_nil]
        exact ⟨.run key, .cons_of_kept hkept hrefresh hrest⟩
      · obtain ⟨hfront, hback⟩ := ih rfl
        exact ⟨.cons key hkept hrefresh hfront, hback⟩

/-- The first segments of a settled row are settled. -/
theorem Settled.take (hsettled : c.Settled request limit segments) (n : ℕ) :
    c.Settled request limit (segments.take n) := by
  rw [← List.take_append_drop n segments] at hsettled
  exact (hsettled.of_append hrespectful hsearch).1

/-- The segments behind them are settled as well. -/
theorem Settled.drop (hsettled : c.Settled request limit segments) (n : ℕ) :
    c.Settled request limit (segments.drop n) := by
  rw [← List.take_append_drop n segments] at hsettled
  exact (hsettled.of_append hrespectful hsearch).2

end Cut

end KanaKanji.Converter
