import Mathlib
import KanaKanji.Proofs.Louds.SubtreeWalk

/-!
# Matches along a query, one after another

The keys that are prefixes of a query can be asked for one at a time. Two searches do so:
`PrefixWalk.next` takes the bytes of the query off as it reads them, and `MatchCursor.next` leaves
the query as it is and keeps the number of bytes read, all in guarded steps. Where a byte leads
nowhere the one has no bytes left and the other is put at the end of the query, so that no later
call finds anything.

Each of the two gives the list of all matches, one match a call, and then nothing for ever
(`Drains`). A call passes bytes up to the next key; what is found behind a byte is found at the
child that the byte leads to (`PrefixWalk.toList_cons_of_eq_some`), and this is all that the
induction on the bytes to come needs (`MatchCursor.drains_toList`).

`commonPrefixSearch_of_build` says which the matches are in a trie that was built: there is one for
each length at which the query spells a key.
-/

set_option autoImplicit false

namespace KanaKanji

/-- The state gives these results, one a call, and after them no result, however often it is called
again. -/
inductive Drains {σ α : Type} (next : σ → Except Fault (Option α × σ)) : σ → List α → Prop
  | nil {state after : σ} (hend : next state = .ok (none, after))
    (hstays : next after = .ok (none, after)) : Drains next state []
  | cons {state after : σ} {result : α} {behind : List α}
    (hfirst : next state = .ok (some result, after)) (hbehind : Drains next after behind) :
    Drains next state (result :: behind)

/-- States with the same next result give the same results. -/
theorem Drains.of_next_eq {σ α : Type} {next : σ → Except Fault (Option α × σ)} {state other : σ}
    (hnext : next state = next other) {results : List α} (hother : Drains next other results) :
    Drains next state results := by
  cases hother with
  | nil hend hstays => exact .nil (hnext.trans hend) hstays
  | cons hfirst hbehind => exact .cons (hnext.trans hfirst) hbehind

namespace Louds

open KanaKanji.Louds.Guarded Outcomes

/-! ### Walks -/

namespace PrefixWalk

variable {t : Trie}

/-- A walk that found nothing more has no bytes to come. -/
theorem rest_eq_nil_of_advance {node depth : ℕ} {rest : Key}
    (hnone : (advance t node depth rest).1 = none) : (advance t node depth rest).2.rest = [] := by
  induction rest generalizing node depth with
  | nil => rfl
  | cons b rest ih =>
    rw [advance] at hnone ⊢
    rcases hchild : t.child? node b with _ | child
    · rfl
    rcases hid : t.keyId? child with _ | id
    · simp only [hchild, hid] at hnone ⊢
      exact ih hnone
    · simp [hchild, hid] at hnone

/-- A walk that has ended stays ended. -/
theorem next_of_next_eq_none {walk after : PrefixWalk} (hnext : walk.next t = (none, after)) :
    after.next t = (none, after) := by
  have hrest : after.rest = [] := by
    have hempty := rest_eq_nil_of_advance (congrArg Prod.fst hnext)
    rwa [← next, hnext] at hempty
  rw [next, hrest, advance, ← hrest]

theorem drains_toList (walk : PrefixWalk) :
    Drains (fun walk ↦ .ok (walk.next t)) walk (walk.toList t) := by
  -- One call may pass many bytes, so the induction is on all shorter rests.
  induction hlength : walk.rest.length using Nat.strong_induction_on generalizing walk with
  | _ length ih =>
    rcases hnext : walk.next t with ⟨_ | found, after⟩
    · rw [toList_of_next_eq_none hnext]
      exact .nil (congrArg Except.ok hnext) (congrArg Except.ok (next_of_next_eq_none hnext))
    · rw [toList_of_next_eq_some hnext]
      exact .cons (congrArg Except.ok hnext) (ih _ (hlength ▸ length_rest_next hnext) after rfl)

end PrefixWalk

/-! ### Cursors -/

/-- A place along a query: the node reached and the number of bytes read. -/
structure MatchCursor where
  node : ℕ
  depth : ℕ
  deriving DecidableEq, Repr

namespace MatchCursor

/-- The cursor at the root. -/
def start : MatchCursor := ⟨Trie.root, 0⟩

/-- The next match of the query from a node and a number of bytes on, and the cursor after it. -/
def nextFrom (t : Trie) (query : Key) (node depth : ℕ) :
    Except Fault (Option PrefixMatch × MatchCursor) :=
  if hdepth : depth < query.length then do
    match ← child? t node query[depth] with
    | none => return (none, ⟨node, query.length⟩)
    | some child =>
      match keyId? t child with
      | some id => return (some ⟨child, id, depth + 1⟩, ⟨child, depth + 1⟩)
      | none => nextFrom t query child (depth + 1)
  else return (none, ⟨node, depth⟩)
termination_by query.length - depth

/-- The next match of the query from a cursor on, and the cursor after it. -/
def next (t : Trie) (query : Key) (cursor : MatchCursor) :
    Except Fault (Option PrefixMatch × MatchCursor) :=
  nextFrom t query cursor.node cursor.depth

variable {t : Trie} {query : Key}

/-- At the end of the query nothing is found. -/
theorem next_of_length_le {node depth : ℕ} (hdepth : query.length ≤ depth) :
    next t query ⟨node, depth⟩ = .ok (none, ⟨node, depth⟩) := by
  rw [next, nextFrom, dif_neg (not_lt.mpr hdepth)]
  rfl

variable (hnodes : t.numNodes < UInt32.size) (hkeys : t.numKeys < UInt32.size)

include hnodes hkeys

/-- A call reads one byte, and goes on if the byte leads to no key. -/
theorem next_of_lt (node : ℕ) {depth : ℕ} (hdepth : depth < query.length) :
    next t query ⟨node, depth⟩ =
      match t.child? node query[depth] with
      | none => .ok (none, ⟨node, query.length⟩)
      | some child =>
        match t.keyId? child with
        | some id => .ok (some ⟨child, id, depth + 1⟩, ⟨child, depth + 1⟩)
        | none => next t query ⟨child, depth + 1⟩ := by
  rw [next, nextFrom, dif_pos hdepth, child?_eq_ok hnodes, ok_bind]
  rcases t.child? node query[depth] with _ | child
  · rfl
  dsimp only
  rw [keyId?_eq hkeys]
  rcases t.keyId? child with _ | id
  · rfl
  · rfl

/-- From a node and a number of bytes on, a cursor gives the matches along the bytes to come. -/
theorem drains_toList (query : Key) (node depth : ℕ) :
    Drains (next t query) ⟨node, depth⟩ (PrefixWalk.toList t ⟨node, depth, query.drop depth⟩) := by
  induction hleft : query.length - depth generalizing node depth with
  | zero =>
    have hend : query.length ≤ depth := by omega
    rw [List.drop_of_length_le hend, PrefixWalk.toList_nil]
    exact .nil (next_of_length_le hend) (next_of_length_le hend)
  | succ left ih =>
    have hdepth : depth < query.length := by omega
    have hstep := next_of_lt hnodes hkeys node hdepth
    rw [← List.cons_getElem_drop_succ (h := hdepth)]
    rcases hchild : t.child? node query[depth] with _ | child
    · rw [hchild] at hstep
      rw [PrefixWalk.toList_cons_of_eq_none hchild]
      exact .nil hstep (next_of_length_le le_rfl)
    -- Without a key at the child the call is the one from there on.
    have hbehind := ih child (depth + 1) (by omega)
    rw [PrefixWalk.toList_cons_of_eq_some hchild]
    rcases hid : t.keyId? child with _ | id
    · simp only [hchild, hid] at hstep
      exact hbehind.of_next_eq hstep
    · simp only [hchild, hid] at hstep
      exact .cons hstep hbehind

theorem drains_commonPrefixSearch (query : Key) :
    Drains (next t query) start (t.commonPrefixSearch query) := by
  have hall := drains_toList hnodes hkeys query Trie.root 0
  rwa [List.drop_zero] at hall

end MatchCursor

/-! ### Tries that store keys -/

namespace Trie

variable {keys : List Key} {t : Trie} (ht : t.Stores keys)

include ht

/-- A string that leads to a key is matched, and no other is. -/
theorem map_length_matchAlong (path : Key) :
    (t.matchAlong root 0 path).map (·.length) = if path ∈ keys then some path.length else none := by
  split
  · next hkey =>
    obtain ⟨node, id, hlocates⟩ := exists_locates hkey
    have hmatch : t.matchAlong root 0 path = some ⟨node, id, 0 + path.length⟩ :=
      matchAlong_eq_some_iff.mpr ⟨(traverse?_eq_some_iff ht).mpr hlocates.node_eq,
        (keyId?_eq_some_iff ht hlocates.node_eq).mpr hlocates.keyId_eq, rfl⟩
    rw [hmatch, Option.map_some, Nat.zero_add]
  · next hkey =>
    rw [Option.map_eq_none_iff, Option.eq_none_iff_forall_ne_some]
    intro found hfound
    obtain ⟨hnode, hid, -⟩ := matchAlong_eq_some_iff.mp hfound
    have hpath := (traverse?_eq_some_iff ht).mp hnode
    exact hkey (mem_keysByLevel.mp (List.mem_of_getElem? ((keyId?_eq_some_iff ht hpath).mp hid)))

/-- The matches of a query have the lengths at which it spells a key, each once and the shorter ones
first. -/
theorem map_length_commonPrefixSearch (query : Key) :
    (t.commonPrefixSearch query).map (·.length) =
      (List.range' 1 query.length).filter (query.take · ∈ keys) := by
  rw [commonPrefixSearch, PrefixWalk.start, PrefixWalk.toList_eq_filterMap, List.map_filterMap,
    ← List.filterMap_eq_filter, List.range'_eq_map_range, List.filterMap_map]
  refine List.filterMap_congr fun n hn ↦ ?_
  rw [map_length_matchAlong ht, List.length_take_of_le (List.mem_range.mp hn), Function.comp_apply,
    Option.guard_apply, Nat.add_comm 1 n]
  simp only [decide_eq_true_eq]

theorem exactMatch?_of_mem_commonPrefixSearch {query : Key} {found : PrefixMatch}
    (hfound : found ∈ t.commonPrefixSearch query) :
    t.exactMatch? (query.take found.length) = some found.node ∧
      t.keyId? found.node = some found.keyId := by
  obtain ⟨-, -, hnode, hid⟩ := mem_commonPrefixSearch_iff.mp hfound
  have hpath := (traverse?_eq_some_iff ht).mp hnode
  have hkey := mem_keysByLevel.mp (List.mem_of_getElem? ((keyId?_eq_some_iff ht hpath).mp hid))
  exact ⟨(exactMatch?_eq_some_iff ht).mpr ⟨hpath, hkey⟩, hid⟩

end Trie

/-! ### Tries that were built -/

variable {keys : List Key}

/-- In a trie that was built, a cursor and a walk along a query give the same matches, one a call,
and then nothing for ever. There is one match for each length, from one up to that of the query, at
which the query spells a key, the shorter ones first, with the node that the key leads to and the
id of the key. -/
theorem commonPrefixSearch_of_build {bytes : List UInt8} (hbytes : build keys = .ok bytes) :
    ∃ t, Trie.ofBytes bytes = .ok t ∧ ∀ query : Key,
      Drains (MatchCursor.next t query) .start (t.commonPrefixSearch query) ∧
      Drains (fun walk : PrefixWalk ↦ .ok (walk.next t)) (.start query) (t.commonPrefixSearch query) ∧
      (t.commonPrefixSearch query).map (·.length) =
        (List.range' 1 query.length).filter (query.take · ∈ keys) ∧
      ∀ found ∈ t.commonPrefixSearch query,
        t.exactMatch? (query.take found.length) = some found.node ∧
          t.keyId? found.node = some found.keyId := by
  obtain ⟨t, hopen, ht, hnodes, hkeys⟩ := exists_stores_lt_of_build hbytes
  exact ⟨t, hopen, fun query ↦ ⟨MatchCursor.drains_commonPrefixSearch hnodes hkeys query,
    PrefixWalk.drains_toList _, Trie.map_length_commonPrefixSearch ht query,
    fun _ hfound ↦ Trie.exactMatch?_of_mem_commonPrefixSearch ht hfound⟩⟩

/-- Of the keys `b`, `ab`, the empty one, `b` again and `a`, two are front parts of `abc`, and a
cursor finds nothing at the byte behind them. -/
theorem commonPrefixSearch_of_build_repeated :
    let keys : List Key := [[98], [97, 98], [], [98], [97]]
    ∃ bytes, build keys = .ok bytes ∧ ∃ t, Trie.ofBytes bytes = .ok t ∧
      ∃ found other, Drains (MatchCursor.next t [97, 98, 99]) .start [found, other] ∧
        found.length = 1 ∧ t.exactMatch? [97] = some found.node ∧
        other.length = 2 ∧ t.exactMatch? [97, 98] = some other.node := by
  intro keys
  obtain ⟨bytes, hbytes⟩ := (build_eq_ok_iff keys).mpr (by decide)
  obtain ⟨t, hopen, hsearch⟩ := commonPrefixSearch_of_build hbytes
  obtain ⟨hdrains, -, hlengths, hnodes⟩ := hsearch [97, 98, 99]
  have htwo : (List.range' 1 3).filter (([97, 98, 99] : Key).take · ∈ keys) = [1, 2] := by decide
  rw [List.length_cons, List.length_cons, List.length_singleton, htwo] at hlengths
  obtain ⟨found, rest, hfound, hone, hrest⟩ := List.map_eq_cons_iff.mp hlengths
  obtain ⟨other, hother, hlast⟩ := List.map_eq_singleton_iff.mp hrest
  rw [hfound, hother] at hdrains hnodes
  have hfirst := (hnodes found (by simp)).1
  have hsecond := (hnodes other (by simp)).1
  rw [hone] at hfirst
  rw [hlast] at hsecond
  exact ⟨bytes, hbytes, t, hopen, found, other, hdrains, hone, hfirst, hlast, hsecond⟩

end Louds

end KanaKanji
