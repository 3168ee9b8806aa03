import Mathlib
import KanaKanji.Proofs.Guarded
import KanaKanji.Proofs.Louds.LevelOrder
import KanaKanji.Proofs.Outcomes

/-!
# Building a trie from ranges of keys

A trie can be built without taking its keys apart. A node is then a range of the sorted keys, which
have their first bytes in common, and what is left of a key begins behind these (`KeyRange.node`).
Ranges wait in a queue. A visit takes the first of them and looks at the byte behind the common ones
in each of its keys; for each run of keys with the same byte a new range is put at the end of the
queue (`RangeWalk.visit`). Bits and labels are written on the way, and all steps are guarded.

A key has such a byte unless it ends there, and since the keys are sorted and distinct, only the
first key of a range can do so (`KeyRange.Fits`). So every read succeeds, and the new ranges are the
children of the node (`exists_visit_eq_ok`). While the ranges of one level are visited, those of the
next level gather behind them (`exists_run_level`), so that the ranges come up in level order. After
as many visits as there are nodes the queue is empty, and what was written is the image of the trie
(`run_writes_image`).
-/

set_option autoImplicit false

namespace KanaKanji.Louds

open KanaKanji.Guarded Outcomes

/-! ### Ranges of keys -/

/-- The keys from one place up to another, which have so many bytes in common. -/
structure KeyRange where
  start : ℕ
  stop : ℕ
  depth : ℕ
  deriving DecidableEq, Repr

/-- What is left, behind so many bytes, of the keys from one place up to another. -/
def ends (keys : Array Key) (start stop depth : ℕ) : Node :=
  ((keys.toList.drop start).take (stop - start)).map (·.drop depth)

variable (keys : Array Key)

/-- The node that a range stands for. -/
def KeyRange.node (r : KeyRange) : Node := ends keys r.start r.stop r.depth

/-- The byte of a key behind so many others. -/
def byteAt (place depth : ℕ) : Except Fault UInt8 := do
  let key ← fetch keys place
  fetch key.toArray depth

/-- The first place, from one place on, of a key that does not go on with a byte. -/
def runEnd (stop depth : ℕ) (label : UInt8) (place : ℕ) : Except Fault ℕ :=
  if place < stop then do
    let byte ← byteAt keys place depth
    if byte = label then runEnd stop depth label (place + 1) else return place
  else return place
termination_by stop - place

/-- Whether the first key of a range ends behind the common bytes. -/
def KeyRange.isTerminal (r : KeyRange) : Except Fault Bool :=
  if r.start < r.stop then do
    let key ← fetch keys r.start
    return key.length == r.depth
  else return false

/-- The keys from one place up to another all go on behind so many bytes. -/
def GoOn (start stop depth : ℕ) : Prop :=
  ∀ place key, start ≤ place → place < stop → keys[place]? = some key → depth < key.length

section Ends

variable {keys} {start stop depth : ℕ}

theorem GoOn.mono {place : ℕ} (hlong : GoOn keys start stop depth) (hle : start ≤ place) :
    GoOn keys place stop depth :=
  fun other key hbehind ↦ hlong other key (hle.trans hbehind)

theorem ends_of_le (hle : stop ≤ start) : ends keys start stop depth = [] := by
  rw [ends, Nat.sub_eq_zero_of_le hle, List.take_zero, List.map_nil]

theorem branches_ends_of_le (hle : stop ≤ start) : (ends keys start stop depth).branches = [] :=
  congrArg Node.branches (ends_of_le hle)

theorem ends_eq_cons {key : Key} (hlt : start < stop) (hkey : keys[start]? = some key) :
    ends keys start stop depth = key.drop depth :: ends keys (start + 1) stop depth := by
  rw [← Array.getElem?_toList] at hkey
  obtain ⟨hstart, rfl⟩ := List.getElem?_eq_some_iff.mp hkey
  have hcount : stop - start = stop - (start + 1) + 1 := by omega
  rw [ends, List.drop_eq_getElem_cons hstart, hcount, List.take_succ_cons, List.map_cons, ends]

theorem mem_ends {place : ℕ} {key : Key} (hstart : start ≤ place) (hstop : place < stop)
    (hkey : keys[place]? = some key) : key.drop depth ∈ ends keys start stop depth := by
  refine List.mem_map_of_mem (List.mem_of_getElem? (i := place - start) ?_)
  rw [List.getElem?_take_of_lt (by omega), List.getElem?_drop, Nat.add_sub_cancel' hstart,
    Array.getElem?_toList, hkey]

/-- Where keys go on with one byte, this byte stands in front of what is left behind it. -/
theorem ends_eq_map_cons_append {label : UInt8} {next : ℕ} (hle : start ≤ next)
    (hnext : next ≤ stop) (hstop : stop ≤ keys.size)
    (hrun : ∀ place key, start ≤ place → place < next → keys[place]? = some key →
      key[depth]? = some label) :
    ends keys start stop depth =
      (ends keys start next (depth + 1)).map (label :: ·) ++ ends keys next stop depth := by
  induction hle using Nat.decreasingInduction with
  | self => rw [ends_of_le le_rfl, List.map_nil, List.nil_append]
  | of_succ place hlt ih =>
    have hkey := Array.getElem?_eq_getElem (show place < keys.size by omega)
    obtain ⟨hdepth, hlabel⟩ := List.getElem?_eq_some_iff.mp (hrun place _ le_rfl hlt hkey)
    rw [ends_eq_cons (by omega) hkey, ends_eq_cons hlt hkey, List.map_cons, List.cons_append,
      List.drop_eq_getElem_cons hdepth, hlabel,
      ih fun other key hother ↦ hrun other key (by omega)]

end Ends

/-! ### Runs of keys -/

/-- A run of keys with one byte is the child of a node, if the next key goes on otherwise. -/
theorem Node.branches_append {label : UInt8} {tails : Node} (htails : tails ≠ []) {rest : Node}
    (hrest : ∀ edge ∈ rest.branches.head?, edge.1 ≠ label) :
    Node.branches (tails.map (label :: ·) ++ rest) = (label, tails) :: rest.branches := by
  induction tails with
  | nil => exact absurd rfl htails
  | cons tail tails ih =>
    rw [List.map_cons, List.cons_append, branches]
    by_cases hlast : tails = []
    · rw [hlast, List.map_nil, List.nil_append]
      rcases hbranches : rest.branches with _ | ⟨⟨next, child⟩, more⟩
      · rfl
      · rw [hbranches] at hrest
        dsimp only
        rw [if_neg (hrest _ rfl).symm]
    · rw [ih hlast]
      dsimp only
      rw [if_pos rfl]

/-- The first edge of a node has the byte of its first key. -/
theorem Node.fst_of_mem_head?_branches {label : UInt8} {tail : Key} {rest : Node}
    {edge : UInt8 × Node} (hedge : edge ∈ (Node.branches ((label :: tail) :: rest)).head?) :
    edge.1 = label := by
  rw [branches] at hedge
  split at hedge
  · rw [← Option.some.inj hedge]
  · split at hedge
    · rw [← Option.some.inj hedge]
    · rw [← Option.some.inj hedge]

section Reads

variable {keys} {stop depth : ℕ} (hstop : stop ≤ keys.size)

theorem byteAt_eq_ok {place : ℕ} {key : Key} {byte : UInt8} (hkey : keys[place]? = some key)
    (hbyte : key[depth]? = some byte) : byteAt keys place depth = .ok byte := by
  rw [byteAt, fetch_eq_ok_iff.mpr hkey, ok_bind, fetch_eq_ok_iff, List.getElem?_toArray, hbyte]

include hstop

/-- Where all keys go on, the end of a run is found, and it is the end of the longest one. -/
theorem exists_runEnd_eq_ok (label : UInt8) {start : ℕ} (hle : start ≤ stop)
    (hlong : GoOn keys start stop depth) :
    ∃ next, runEnd keys stop depth label start = .ok next ∧ start ≤ next ∧ next ≤ stop ∧
      (∀ place key, start ≤ place → place < next → keys[place]? = some key →
        key[depth]? = some label) ∧
      ∀ key, next < stop → keys[next]? = some key → key[depth]? ≠ some label := by
  induction hle using Nat.decreasingInduction with
  | self =>
    rw [runEnd, if_neg (lt_irrefl _)]
    exact ⟨stop, rfl, le_rfl, le_rfl, fun place _ hstart hend ↦ absurd hend (not_lt.mpr hstart),
      fun _ hlt ↦ absurd hlt (lt_irrefl _)⟩
  | of_succ place hlt ih =>
    have hkey := Array.getElem?_eq_getElem (show place < keys.size by omega)
    have hbyte := List.getElem?_eq_getElem (hlong place _ le_rfl hlt hkey)
    rw [runEnd, if_pos hlt, byteAt_eq_ok hkey hbyte, ok_bind]
    split
    · next hsame =>
      obtain ⟨next, hnext, hstart, hend, hrun, hother⟩ :=
        ih (hlong.mono place.le_succ)
      refine ⟨next, hnext, by omega, hend, fun other key hle hbefore hfound ↦ ?_, hother⟩
      rcases hle.eq_or_lt with rfl | hbehind
      · rw [← Option.some.inj (hkey.symm.trans hfound), hbyte, hsame]
      · exact hrun other key hbehind hbefore hfound
    · next hother =>
      refine ⟨place, rfl, le_rfl, hlt.le, fun other _ hstart hend ↦ absurd hend (not_lt.mpr hstart),
        fun key _ hfound ↦ ?_⟩
      rw [← Option.some.inj (hkey.symm.trans hfound), hbyte]
      exact fun hsame ↦ hother (Option.some.inj hsame)

/-- Where all keys go on, the first run of keys with the same byte is found, and it is the first
child. -/
theorem exists_firstRun_eq_ok {start : ℕ} (hlt : start < stop)
    (hlong : GoOn keys start stop depth) :
    ∃ label next, byteAt keys start depth = .ok label ∧
      runEnd keys stop depth label start = .ok next ∧ start < next ∧ next ≤ stop ∧
      (ends keys start stop depth).branches =
        (label, ends keys start next (depth + 1)) :: (ends keys next stop depth).branches := by
  have hkey := Array.getElem?_eq_getElem (show start < keys.size by omega)
  have hbyte := List.getElem?_eq_getElem (hlong start _ le_rfl hlt hkey)
  obtain ⟨next, hnext, hle, hend, hrun, hother⟩ := exists_runEnd_eq_ok hstop _ hlt.le hlong
  have hfound : start < next := by
    refine hle.lt_of_ne fun hsame ↦ ?_
    subst hsame
    exact hother _ hlt hkey hbyte
  have htails : ends keys start next (depth + 1) ≠ [] := by
    rw [ends_eq_cons hfound hkey]
    exact List.cons_ne_nil _ _
  refine ⟨_, next, byteAt_eq_ok hkey hbyte, hnext, hfound, hend, ?_⟩
  rw [ends_eq_map_cons_append hle hend hstop hrun, Node.branches_append htails]
  intro edge hedge
  rcases hend.lt_or_eq with hmore | rfl
  · have hkey' := Array.getElem?_eq_getElem (show next < keys.size by omega)
    have hdepth := hlong next _ hle hmore hkey'
    rw [ends_eq_cons hmore hkey', List.drop_eq_getElem_cons hdepth] at hedge
    rw [Node.fst_of_mem_head?_branches hedge]
    intro hsame
    exact hother _ hmore hkey' ((List.getElem?_eq_getElem hdepth).trans (congrArg some hsame))
  · rw [ends_of_le le_rfl] at hedge
    exact absurd hedge (Option.not_mem_none _)

end Reads

/-! ### The walk -/

/-- Ranges that wait to be visited, and what was written so far: the bits of the degrees and of the
ends of keys, and the labels. -/
structure RangeWalk where
  queue : List KeyRange
  degrees : BitStream
  terminals : BitStream
  labels : Key

namespace RangeWalk

/-- The walk with one more range to visit, which is below an edge with a label. -/
def push (walk : RangeWalk) (edge : UInt8 × KeyRange) : RangeWalk :=
  { walk with
    queue := walk.queue ++ [edge.2]
    degrees := walk.degrees.push true
    labels := walk.labels ++ [edge.1] }

/-- The walk with a range for each run of keys that go on with one byte, in so many rounds at
most. -/
def branch (stop depth : ℕ) : (rounds place : ℕ) → RangeWalk → Except Fault RangeWalk
  | rounds, place, walk =>
    if place < stop then
      match rounds with
      | 0 => .error .unfinished
      | rounds + 1 => do
        let label ← byteAt keys place depth
        let next ← runEnd keys stop depth label place
        branch stop depth rounds next (walk.push (label, ⟨place, next, depth + 1⟩))
    else .ok walk

/-- The walk after the visit of a range that was taken from its queue. -/
def visit (r : KeyRange) (walk : RangeWalk) : Except Fault RangeWalk := do
  let terminal ← r.isTerminal keys
  let first := if terminal then r.start + 1 else r.start
  let walk := { walk with terminals := walk.terminals.push terminal }
  let walk ← branch keys r.stop r.depth (r.stop - first) first walk
  return { walk with degrees := walk.degrees.push false }

/-- The walk with an empty queue, after so many visits at most. -/
def run : (visits : ℕ) → RangeWalk → Except Fault RangeWalk
  | visits, walk =>
    match walk.queue with
    | [] => .ok walk
    | r :: queue =>
      match visits with
      | 0 => .error .unfinished
      | visits + 1 => do run visits (← visit keys r { walk with queue })

/-- The walk that has to visit all keys. The node above the root and the label of the root are
written. -/
def start : RangeWalk where
  queue := [⟨0, keys.size, 0⟩]
  degrees := (BitStream.empty.push true).push false
  terminals := .empty
  labels := [0]

/-- The image that was written. -/
def image (walk : RangeWalk) : Image where
  degrees := walk.degrees.padTo32.toBytes
  terminals := walk.terminals.padTo32.toBytes
  labels := walk.labels

/-- The walk with another queue, once so many nodes were visited. -/
def after (walk : RangeWalk) (queue : List KeyRange) (nodes : List Node) : RangeWalk where
  queue := queue
  degrees := walk.degrees.pushAll (nodes.flatMap Node.degreeBits)
  terminals := walk.terminals.pushAll (nodes.map Node.isTerminal)
  labels := walk.labels ++ nodes.flatMap Node.childLabels

theorem after_after (walk : RangeWalk) (queue queue' : List KeyRange) (nodes nodes' : List Node) :
    (walk.after queue nodes).after queue' nodes' = walk.after queue' (nodes ++ nodes') := by
  simp only [after, BitStream.pushAll, List.flatMap_append, List.map_append, List.foldl_append,
    List.append_assoc]

/-! ### One visit -/

variable {keys} {stop depth : ℕ} {r : KeyRange}

theorem foldl_push (edges : List (UInt8 × KeyRange)) (walk : RangeWalk) :
    edges.foldl push walk =
      { walk with
        queue := walk.queue ++ edges.map (·.2)
        degrees := walk.degrees.pushAll (.replicate edges.length true)
        labels := walk.labels ++ edges.map (·.1) } := by
  induction edges generalizing walk with
  | nil => simp only [List.foldl_nil, List.map_nil, List.append_nil]; rfl
  | cons edge edges ih =>
    rw [List.foldl_cons, ih, push]
    simp only [List.map_cons, List.append_assoc, List.singleton_append, List.length_cons]
    rfl

theorem branch_of_le {rounds place : ℕ} (hle : stop ≤ place) (walk : RangeWalk) :
    branch keys stop depth rounds place walk = .ok walk := by
  cases rounds <;> rw [branch, if_neg (not_lt.mpr hle)]

/-- Where all keys go on, they are parted into the children of the node. -/
theorem exists_branch_eq_ok (hstop : stop ≤ keys.size) {rounds place : ℕ}
    (hrounds : stop - place ≤ rounds) (hlong : GoOn keys place stop depth) :
    ∃ edges : List (UInt8 × KeyRange),
      (∀ walk : RangeWalk,
        branch keys stop depth rounds place walk = .ok (edges.foldl push walk)) ∧
      edges.map (fun edge ↦ (edge.1, edge.2.node keys)) = (ends keys place stop depth).branches ∧
      ∀ edge ∈ edges, edge.2.depth = depth + 1 ∧ place ≤ edge.2.start ∧ edge.2.stop ≤ stop := by
  induction rounds generalizing place with
  | zero =>
    have hle : stop ≤ place := by omega
    exact ⟨[], branch_of_le hle, (branches_ends_of_le hle).symm, List.forall_mem_nil _⟩
  | succ rounds ih =>
    by_cases hlt : place < stop
    · obtain ⟨label, next, hlabel, hnext, hfound, hend, hbranches⟩ :=
        exists_firstRun_eq_ok hstop hlt hlong
      have hfewer : stop - next ≤ rounds := by omega
      obtain ⟨edges, hbranch, hedges, hwithin⟩ := ih hfewer (hlong.mono hfound.le)
      refine ⟨(label, ⟨place, next, depth + 1⟩) :: edges, fun walk ↦ ?_, ?_, ?_⟩
      · rw [branch, if_pos hlt, hlabel, ok_bind, hnext, ok_bind, hbranch]
        rfl
      · rw [List.map_cons, hedges, hbranches]
        rfl
      · refine List.forall_mem_cons.mpr ⟨⟨rfl, le_rfl, hend⟩, fun edge hmem ↦ ?_⟩
        obtain ⟨hdepth, hbehind, hwithin⟩ := hwithin edge hmem
        exact ⟨hdepth, hfound.le.trans hbehind, hwithin⟩
    · have hle := not_lt.mp hlt
      exact ⟨[], branch_of_le hle, (branches_ends_of_le hle).symm, List.forall_mem_nil _⟩

end RangeWalk

namespace KeyRange

variable {keys} {r : KeyRange}

/-- The keys of a range are there and have the bytes that they have in common, and what is left of
them is sorted. -/
structure Fits (keys : Array Key) (r : KeyRange) : Prop where
  stop_le : r.stop ≤ keys.size
  depth_le : ∀ place key, r.start ≤ place → place < r.stop → keys[place]? = some key →
    r.depth ≤ key.length
  pairwise_node : (r.node keys).Pairwise (· < ·)

theorem Fits.exists_getElem?_start (hr : r.Fits keys) (hlt : r.start < r.stop) :
    ∃ key, keys[r.start]? = some key ∧ r.depth ≤ key.length := by
  have hkey := Array.getElem?_eq_getElem (hlt.trans_le hr.stop_le)
  exact ⟨_, hkey, hr.depth_le _ _ le_rfl hlt hkey⟩

theorem Fits.isTerminal_eq_ok (hr : r.Fits keys) :
    r.isTerminal keys = .ok (r.node keys).isTerminal := by
  rw [isTerminal, node]
  split
  · next hlt =>
    obtain ⟨key, hkey, hdepth⟩ := hr.exists_getElem?_start hlt
    rw [fetch_eq_ok_iff.mpr hkey, ok_bind, ends_eq_cons hlt hkey, Node.isTerminal,
      List.head?_cons]
    refine congrArg Except.ok (Bool.eq_iff_iff.mpr ?_)
    rw [beq_iff_eq, beq_iff_eq, Option.some.injEq, List.drop_eq_nil_iff]
    exact ⟨fun hsame ↦ hsame.le, fun hle ↦ hle.antisymm hdepth⟩
  · next hge =>
    rw [ends_of_le (not_lt.mp hge)]
    rfl

/-- The first place of a range whose key goes on behind the common bytes. -/
def first (keys : Array Key) (r : KeyRange) : ℕ :=
  if (r.node keys).isTerminal then r.start + 1 else r.start

/-- Only the first key of a range can end behind the common bytes. -/
theorem Fits.goOn (hr : r.Fits keys) : GoOn keys (r.first keys) r.stop r.depth := by
  intro place key hfirst hlt hkey
  have hstart : r.start ≤ place := by
    rw [first] at hfirst
    split at hfirst <;> omega
  refine (hr.depth_le place key hstart hlt hkey).lt_of_ne fun hends ↦ ?_
  have hnil : key.drop r.depth = [] := List.drop_eq_nil_iff.mpr hends.ge
  have hsorted := hr.pairwise_node
  rcases hstart.eq_or_lt with rfl | hbehind
  · rw [first, node, ends_eq_cons hlt hkey, hnil] at hfirst
    exact absurd hfirst (Nat.not_succ_le_self _)
  · obtain ⟨head, hhead, -⟩ := hr.exists_getElem?_start (hstart.trans_lt hlt)
    rw [node, ends_eq_cons (hstart.trans_lt hlt) hhead, List.pairwise_cons] at hsorted
    have hmem := hsorted.1 (key.drop r.depth) (mem_ends hbehind hlt hkey)
    rw [hnil] at hmem
    exact absurd hmem (List.not_lt_nil _)

/-- A key that ends behind the common bytes is below no edge. -/
theorem Fits.branches_ends_first (hr : r.Fits keys) :
    (ends keys (r.first keys) r.stop r.depth).branches = (r.node keys).branches := by
  by_cases hlt : r.start < r.stop
  · obtain ⟨key, hkey, -⟩ := hr.exists_getElem?_start hlt
    rw [first, node, ends_eq_cons hlt hkey, Node.isTerminal, List.head?_cons]
    split
    · next hends =>
      rw [Option.some.inj (beq_iff_eq.mp hends)]
      rfl
    · rw [ends_eq_cons hlt hkey]
  · rw [first, node, ends_of_le (not_lt.mp hlt)]
    exact branches_ends_of_le (not_lt.mp hlt)

theorem Fits.pairwise_of_mem_children (hr : r.Fits keys) {child : Node}
    (hchild : child ∈ (r.node keys).children) : child.Pairwise (· < ·) := by
  rw [Node.children_eq_map_after hr.pairwise_node] at hchild
  obtain ⟨label, -, rfl⟩ := List.mem_map.mp hchild
  exact Node.pairwise_after hr.pairwise_node label

end KeyRange

namespace RangeWalk

variable {keys}

open KeyRange

/-- A visit writes what there is to write for the node of the range, and puts the ranges of its
children into the queue. -/
theorem exists_visit_eq_ok {r : KeyRange} (hr : r.Fits keys) :
    ∃ children : List KeyRange,
      (∀ walk : RangeWalk,
        visit keys r walk = .ok (walk.after (walk.queue ++ children) [r.node keys])) ∧
      (∀ child ∈ children, child.Fits keys) ∧
      children.map (KeyRange.node keys) = (r.node keys).children := by
  obtain ⟨edges, hbranch, hedges, hwithin⟩ := exists_branch_eq_ok hr.stop_le le_rfl hr.goOn
  rw [hr.branches_ends_first] at hedges
  have hchildren : (edges.map (·.2)).map (KeyRange.node keys) = (r.node keys).children := by
    rw [Node.children, ← hedges, List.map_map, List.map_map]
    rfl
  have hlabels : edges.map (·.1) = (r.node keys).childLabels := by
    rw [Node.childLabels, ← hedges, List.map_map]
    rfl
  have hlength : edges.length = (r.node keys).children.length := by
    rw [← hchildren, List.length_map, List.length_map]
  refine ⟨edges.map (·.2), fun walk ↦ ?_, ?_, hchildren⟩
  · rw [visit, hr.isTerminal_eq_ok, ok_bind]
    dsimp only
    rw [← KeyRange.first, hbranch, ok_bind, foldl_push, hlabels, hlength]
    simp only [after, List.flatMap_singleton, List.map_singleton, Node.degreeBits,
      BitStream.pushAll, List.foldl_append]
    rfl
  · intro child hmem
    have hnode := List.mem_map_of_mem (f := KeyRange.node keys) hmem
    rw [hchildren] at hnode
    obtain ⟨edge, hedge, rfl⟩ := List.mem_map.mp hmem
    obtain ⟨hdepth, hstart, hstop⟩ := hwithin edge hedge
    refine ⟨hstop.trans hr.stop_le, fun place key hbehind hlt hkey ↦ ?_,
      hr.pairwise_of_mem_children hnode⟩
    rw [hdepth]
    exact hr.goOn place key (hstart.trans hbehind) (hlt.trans_le hstop) hkey

/-! ### Level by level -/

theorem run_cons (visits : ℕ) (r : KeyRange) (queue : List KeyRange) (walk : RangeWalk) :
    run keys (visits + 1) { walk with queue := r :: queue } =
      visit keys r { walk with queue } >>= run keys visits := by
  rw [run]

/-- While the ranges of a level are visited, those of the next level gather behind them. The
induction is on the level. -/
theorem exists_run_level {level : List KeyRange} (hlevel : ∀ r ∈ level, r.Fits keys) :
    ∃ next : List KeyRange, (∀ r ∈ next, r.Fits keys) ∧
      next.map (KeyRange.node keys) =
        (level.map (KeyRange.node keys)).flatMap Node.children ∧
      ∀ (queue : List KeyRange) (visits : ℕ) (walk : RangeWalk),
        run keys (level.length + visits) { walk with queue := level ++ queue } =
          run keys visits (walk.after (queue ++ next) (level.map (KeyRange.node keys))) := by
  induction level with
  | nil =>
    refine ⟨[], List.forall_mem_nil _, rfl, fun queue visits walk ↦ ?_⟩
    rw [List.length_nil, Nat.zero_add, List.nil_append, List.append_nil, after]
    simp only [List.map_nil, List.flatMap_nil, List.append_nil]
    rfl
  | cons r level ih =>
    obtain ⟨hr, hrest⟩ := List.forall_mem_cons.mp hlevel
    obtain ⟨next, hnext, hnodes, hrun⟩ := ih hrest
    obtain ⟨children, hvisit, hchildren, hbelow⟩ := exists_visit_eq_ok hr
    refine ⟨children ++ next, List.forall_mem_append.mpr ⟨hchildren, hnext⟩, ?_,
      fun queue visits walk ↦ ?_⟩
    · rw [List.map_append, hbelow, hnodes, List.map_cons, List.flatMap_cons]
    · have hvisits : (r :: level).length + visits = level.length + visits + 1 := by
        rw [List.length_cons]
        omega
      have hbehind := hrun (queue ++ children) visits (walk.after [] [r.node keys])
      rw [after_after, List.append_assoc, List.singleton_append] at hbehind
      rw [hvisits, List.cons_append, run_cons, hvisit, ok_bind, List.map_cons, ← hbehind,
        ← List.append_assoc]
      rfl

variable (keys : List Key)

/-- The ranges of a level and of those below it write the nodes of these levels. The induction is on
the number of levels, the last of which has no nodes. -/
theorem run_levels {depth count : ℕ} (hcount : depth + count = maxLength keys + 1)
    {level : List KeyRange} (hlevel : ∀ r ∈ level, r.Fits (sortedKeys keys).toArray)
    (hnodes : level.map (KeyRange.node (sortedKeys keys).toArray) =
      (pathsOfLength (sortedKeys keys) depth).map (Node.below (sortedKeys keys)))
    (spare : ℕ) (walk : RangeWalk) :
    run (sortedKeys keys).toArray
        ((levelOrder count (level.map (KeyRange.node (sortedKeys keys).toArray))).length + spare)
        { walk with queue := level } =
      .ok (walk.after []
        (levelOrder count (level.map (KeyRange.node (sortedKeys keys).toArray)))) := by
  induction count generalizing depth level walk with
  | zero =>
    obtain rfl : depth = maxLength keys + 1 := hcount
    rw [pathsOfLength_succ_maxLength, List.map_nil, List.map_eq_nil_iff] at hnodes
    rw [run, hnodes]
    simp only [levelOrder, after, List.map_nil, List.flatMap_nil, List.append_nil]
    rfl
  | succ count ih =>
    obtain ⟨next, hnext, hbelow, hrun⟩ := exists_run_level hlevel
    have hdeeper : depth + 1 + count = maxLength keys + 1 := by omega
    have hpaths : next.map (KeyRange.node (sortedKeys keys).toArray) =
        (pathsOfLength (sortedKeys keys) (depth + 1)).map (Node.below (sortedKeys keys)) := by
      rw [hbelow, hnodes, flatMap_children_map_below (pairwise_sortedKeys keys)]
    have hrest := ih hdeeper hnext hpaths
      (walk.after [] (level.map (KeyRange.node (sortedKeys keys).toArray)))
    rw [after_after, hbelow] at hrest
    rw [levelOrder, List.length_append, List.length_map, Nat.add_assoc, ← hrest]
    have hfirst (visits : ℕ) := hrun [] visits walk
    rw [List.append_nil, List.nil_append] at hfirst
    exact hfirst _

/-- The range of all keys stands for the root. -/
theorem node_root : KeyRange.node (sortedKeys keys).toArray
    ⟨0, (sortedKeys keys).toArray.size, 0⟩ = sortedKeys keys := by
  simp only [KeyRange.node, ends, List.drop_zero, Nat.sub_zero, List.size_toArray, List.take_length,
    List.map_id_fun', id]

theorem fits_root : KeyRange.Fits (sortedKeys keys).toArray
    ⟨0, (sortedKeys keys).toArray.size, 0⟩ := by
  refine ⟨le_rfl, fun _ _ _ _ _ ↦ Nat.zero_le _, ?_⟩
  rw [node_root]
  exact pairwise_sortedKeys keys

/-- The walk over ranges reads no key past its end, comes to its end after as many visits as there
are nodes, and writes the image of the trie. -/
theorem run_writes_image (spare : ℕ) :
    (run (sortedKeys keys).toArray ((nodes keys).length + spare)
      (start (sortedKeys keys).toArray)).map image = .ok (imageOf keys) := by
  set all := (sortedKeys keys).toArray
  have hroot : (start all).queue.map (KeyRange.node all) = [sortedKeys keys] := by
    rw [start, List.map_singleton, node_root]
  have hfits : ∀ r ∈ (start all).queue, r.Fits all :=
    List.forall_mem_singleton.mpr (fits_root keys)
  have hrun := run_levels keys (Nat.zero_add _) hfits hroot spare (start all)
  rw [hroot] at hrun
  have hall : levelOrder (maxLength keys + 1) [sortedKeys keys] = nodes keys := rfl
  rw [hall] at hrun
  refine (congrArg (Except.map image) hrun).trans ?_
  simp only [Except.map, image, after, start, imageOf, degreeBits, BitStream.pushAll,
    List.foldl_append, List.foldl_cons, List.foldl_nil, List.singleton_append]

end RangeWalk

end KanaKanji.Louds
