import Mathlib
import KanaKanji.Proofs.Louds.ExpandedSearch
import KanaKanji.Proofs.Louds.ExpansionTable
import KanaKanji.Proofs.Louds.SubtreeWalk

/-!
# Visits that share one buffer

The searches with expanded bytes can spell all keys in one buffer. On the way down to a child its
label is added to the buffer, on the way back it is taken off again; how many bytes are in the
buffer says which byte of the query comes next, and what the visitor is shown is the buffer itself.
The walks of this module do so, read labels and ids in guarded steps and what a byte stands for in a
table of bits, and are cut off when their calls nest too deep.

Unless it was stopped, a walk leaves the buffer as it found it, and it leaves the visitor as the
search without a buffer does (`Renders`). So the next child finds the path of its node in the
buffer. With what the searches show to a visitor, `expandedPrefixSearch_of_build` and
`expandedPredictiveSearch_of_build` say what is visited in a trie that was built.
-/

set_option autoImplicit false

namespace KanaKanji.Louds

open KanaKanji.Louds.Guarded Outcomes

/-- The key as it matches a front part of a query: its node, its id and its length. -/
def PredictiveMatch.toPrefixMatch (found : PredictiveMatch) : PrefixMatch :=
  ⟨found.node, found.keyId, found.key.length⟩

/-! ### Walks -/

namespace SharedBuffer

variable {σ α : Type}

/-- A visitor that is shown the buffer and a match. -/
abbrev Visitor (σ α : Type) := σ → Key → α → σ × SearchControl

/-- Where a walk ends: the visitor's state and the buffer, and whether the visitor stopped. -/
abbrev Ended (σ : Type) := Except Fault ((σ × Key) × Bool)

/-- The visit of a node, where a key may end, and of what lies below it. -/
def visitNode (visit : Visitor σ α) (found : Option α) (s : σ) (buffer : Key)
    (below : σ → Ended σ) : Ended σ :=
  match found with
  | none => below s
  | some found =>
    match visit s buffer found with
    | (s, .goOn) => below s
    | (s, .cull) => .ok ((s, buffer), false)
    | (s, .done) => .ok ((s, buffer), true)

/-- Takes the last label off the buffer. -/
def pop : (σ × Key) × Bool → (σ × Key) × Bool
  | ((s, buffer), stopped) => ((s, buffer.dropLast), stopped)

/-- Takes the last label off the buffer, unless the visitor stopped. -/
def popUnlessStopped (ended : (σ × Key) × Bool) : (σ × Key) × Bool :=
  if ended.2 then ended else pop ended

section Walks

variable (t : Trie) (table : ExpansionTable)

/-- Takes a step at each child of a node whose label a byte stands for, until the visitor stops. -/
def overHits (b : UInt8) (node : ℕ) (step : ℕ → UInt8 → σ → Key → Ended σ) (s : σ) (buffer : Key) :
    Ended σ :=
  Guarded.untilStopped (fun (s, shared) child ↦ do
      let found ← label t child
      if table.isHit b found then step child found s shared else return ((s, shared), false))
    (s, buffer) (children t node)

/-- Visits the keys that are spelled by bytes standing for front parts of the query, in calls that
nest so deep at most. -/
def visitPrefixes (visit : Visitor σ PrefixMatch) (query : Key) :
    (calls node : ℕ) → σ → Key → Ended σ
  | 0, _, _, _ => .error .unfinished
  | calls + 1, node, s, buffer =>
    match query[buffer.length]? with
    | none => .ok ((s, buffer), false)
    | some b =>
      overHits t table b node (fun child found s shared ↦
        let longer := shared ++ [found]
        (visitNode visit ((keyId? t child).map (⟨child, ·, buffer.length + 1⟩)) s longer
          fun s ↦ visitPrefixes visit query calls child s longer).map popUnlessStopped)
        s buffer

/-- Visits the keys, except the empty one, that are prefixes of the query when bytes stand for more
labels than themselves. -/
def expandedPrefixSearch (calls : ℕ) (query : Key) (visit : Visitor σ PrefixMatch) (s : σ) :
    Except Fault σ :=
  (visitPrefixes t table visit query calls Trie.root s []).map (·.1.1)

/-- Visits the keys at a node and below it. -/
def visitBelow (visit : Visitor σ PredictiveMatch) : (calls node : ℕ) → σ → Key → Ended σ
  | 0, _, _, _ => .error .unfinished
  | calls + 1, node, s, buffer =>
    visitNode visit ((keyId? t node).map (⟨buffer, node, ·⟩)) s buffer fun s ↦
      Guarded.untilStopped (fun (s, shared) child ↦ do
        let found ← label t child
        (visitBelow visit calls child s (shared ++ [found])).map pop)
        (s, buffer) (children t node)

/-- Visits the keys below all nodes that the rest of the query leads to. -/
def visitExpanded (visit : Visitor σ PredictiveMatch) (query : Key) :
    (calls node : ℕ) → σ → Key → Ended σ
  | 0, _, _, _ => .error .unfinished
  | calls + 1, node, s, buffer =>
    match query[buffer.length]? with
    | none => visitBelow t visit calls node s buffer
    | some b =>
      overHits t table b node
        (fun child found s shared ↦
          (visitExpanded visit query calls child s (shared ++ [found])).map pop)
        s buffer

/-- Visits the keys that begin with the query when its bytes stand for more labels than
themselves. -/
def expandedPredictiveSearch (calls : ℕ) (query : Key) (visit : Visitor σ PredictiveMatch)
    (s : σ) : Except Fault σ :=
  (visitExpanded t table visit query calls Trie.root s []).map (·.1.1)

end Walks

/-! ### What a walk leaves behind -/

/-- A walk from a buffer comes to the same result as a search without a buffer, and it leaves the
buffer as it was unless the visitor stopped. -/
def Renders (walk : Ended σ) (buffer : Key) (result : σ × Bool) : Prop :=
  ∃ after, walk = .ok ((result.1, after), result.2) ∧ (result.2 = false → after = buffer)

variable {buffer : Key} {result : σ × Bool}

theorem Renders.map_eq {walk : Ended σ} (hwalk : Renders walk buffer result) :
    walk.map (·.1.1) = .ok result.1 := by
  obtain ⟨after, rfl, -⟩ := hwalk
  rfl

/-- A buffer that had a label added is as before once the label is taken off. -/
theorem Renders.pop {walk : Ended σ} {found : UInt8}
    (hwalk : Renders walk (buffer ++ [found]) result) :
    Renders (walk.map SharedBuffer.pop) buffer result := by
  obtain ⟨after, rfl, hafter⟩ := hwalk
  refine ⟨after.dropLast, rfl, fun hgoOn ↦ ?_⟩
  rw [hafter hgoOn, List.dropLast_concat]

theorem Renders.popUnlessStopped {walk : Ended σ} {found : UInt8}
    (hwalk : Renders walk (buffer ++ [found]) result) :
    Renders (walk.map SharedBuffer.popUnlessStopped) buffer result := by
  obtain ⟨after, rfl, hafter⟩ := hwalk
  obtain ⟨s, _ | _⟩ := result
  · exact ⟨after.dropLast, rfl, fun _ ↦ by rw [hafter rfl, List.dropLast_concat]⟩
  · exact ⟨after, rfl, fun hgoOn ↦ absurd hgoOn (by simp)⟩

theorem renders_visitNode {t : Trie} {visit : Visitor σ α} {view : PredictiveMatch → α} {node : ℕ}
    {s : σ} {below : σ → Ended σ} {total : σ → σ × Bool}
    (hbelow : ∀ s, Renders (below s) buffer (total s)) :
    Renders (visitNode visit ((t.matchAt node buffer).map view) s buffer below) buffer
      (t.visitNode (fun s found ↦ visit s found.key (view found)) node buffer s total) := by
  rw [Trie.visitNode, Trie.matchAt]
  rcases t.keyId? node with _ | id
  · exact hbelow s
  dsimp only [Option.map_some, visitNode]
  rcases visit s buffer (view ⟨buffer, node, id⟩) with ⟨s, _ | _ | _⟩
  · exact hbelow s
  · exact ⟨buffer, rfl, fun _ ↦ rfl⟩
  · exact ⟨buffer, rfl, fun hgoOn ↦ absurd hgoOn (by simp)⟩

/-- Where each step leaves the buffer as it was, a row of steps does so too. -/
theorem renders_untilStopped {step : σ × Key → ℕ → Ended σ} {total : σ → ℕ → σ × Bool}
    {nodes : List ℕ} (hstep : ∀ s, ∀ c ∈ nodes, Renders (step (s, buffer) c) buffer (total s c))
    (s : σ) :
    Renders (Guarded.untilStopped step (s, buffer) nodes) buffer
      (Louds.untilStopped total s nodes) := by
  induction nodes generalizing s with
  | nil => exact ⟨buffer, rfl, fun _ ↦ rfl⟩
  | cons c rest ih =>
    rw [Guarded.untilStopped, Louds.untilStopped]
    obtain ⟨after, hfirst, hafter⟩ := hstep s c List.mem_cons_self
    rw [hfirst, ok_bind]
    generalize total s c = result at hafter ⊢
    obtain ⟨s, _ | _⟩ := result
    · obtain rfl := hafter rfl
      exact ih (fun s d hd ↦ hstep s d (List.mem_cons_of_mem c hd)) s
    · exact ⟨after, rfl, fun hgoOn ↦ absurd hgoOn (by simp)⟩

/-- Steps that do nothing at some elements run over the others. -/
theorem untilStopped_ite {β : Type} {p : β → Bool} {total : σ → β → σ × Bool} {xs : List β}
    (s : σ) :
    Louds.untilStopped (fun s a ↦ if p a then total s a else (s, false)) s xs =
      Louds.untilStopped total s (xs.filter p) := by
  induction xs generalizing s with
  | nil => rfl
  | cons a rest ih =>
    rw [Louds.untilStopped]
    by_cases hp : p a
    · rw [if_pos hp, List.filter_cons_of_pos hp, Louds.untilStopped]
      simp only [ih]
    · rw [if_neg hp, List.filter_cons_of_neg hp]
      exact ih s

/-- The byte of the query that comes next, and what is left of it with one label more in the
buffer. -/
theorem getElem?_and_drop_of_drop_eq_cons {query buffer rest : Key} {b : UInt8}
    (hrest : query.drop buffer.length = b :: rest) :
    query[buffer.length]? = some b ∧
      ∀ label, query.drop (buffer ++ [label]).length = rest := by
  refine ⟨by rw [← List.head?_drop, hrest, List.head?_cons], fun label ↦ ?_⟩
  rw [List.length_append, List.length_singleton, ← List.tail_drop, hrest, List.tail_cons]

/-- All paths that go on from a path have fewer bytes more than so many. -/
def Reaches (keys : List Key) (levels : ℕ) (path : Key) : Prop :=
  ∀ longer ∈ nodePaths keys, path <+: longer → longer.length < path.length + levels

theorem not_reaches_zero {keys : List Key} {path : Key} {i : ℕ}
    (hpath : (nodePaths keys)[i]? = some path) : ¬ Reaches keys 0 path := fun hreaches ↦
  lt_irrefl _ (hreaches path (List.mem_of_getElem? hpath) List.prefix_rfl)

/-- One label further down, one level less reaches as far. -/
theorem Reaches.child {keys : List Key} {levels : ℕ} {path : Key}
    (hreaches : Reaches keys (levels + 1) path) (label : UInt8) :
    Reaches keys levels (path ++ [label]) := by
  intro longer hmem hlonger
  have hbound := hreaches longer hmem ((List.prefix_append _ _).trans hlonger)
  rw [List.length_append, List.length_singleton]
  omega

/-- No path has more bytes than the trie has nodes. -/
theorem reaches_of_length_le {keys : List Key} {levels : ℕ}
    (hlevels : (nodePaths keys).length ≤ levels) (path : Key) : Reaches keys levels path := by
  intro longer hmem _
  have hlength := length_lt_of_mem hmem
  omega

/-! ### Walks on a trie -/

section Walks

variable {t : Trie} {x : Expansion} {table : ExpansionTable}
  (htable : ∀ b label, table.isHit b label = x.hits b label)
  (hnodes : t.numNodes < UInt32.size) (hkeys : t.numKeys < UInt32.size)

include htable hnodes hkeys

omit hkeys in
/-- Children that the byte does not stand for change neither the state nor the buffer. -/
theorem renders_overHits {b : UInt8} {node : ℕ} {step : ℕ → UInt8 → σ → Key → Ended σ}
    {total : σ → ℕ → σ × Bool} {buffer : Key}
    (hstep : ∀ s, ∀ c ∈ t.children node, Renders (step c (t.label c) s buffer) buffer (total s c))
    (s : σ) :
    Renders (overHits t table b node step s buffer) buffer
      (Louds.untilStopped total s ((t.children node).filter fun c ↦ x.hits b (t.label c))) := by
  rw [overHits, children_eq hnodes, ← untilStopped_ite]
  refine renders_untilStopped (fun s c hc ↦ ?_) s
  dsimp only
  rw [label_eq_ok (Trie.lt_numNodes_of_mem_children hc), ok_bind, htable]
  by_cases hhit : x.hits b (t.label c)
  · rw [if_pos hhit, if_pos hhit]
    exact hstep s c hc
  · rw [if_neg hhit, if_neg hhit]
    exact ⟨buffer, rfl, fun _ ↦ rfl⟩

theorem renders_visitPrefixes (visit : Visitor σ PrefixMatch) {query : Key} {calls : ℕ}
    (node : ℕ) (s : σ) {buffer rest : Key} (hrest : query.drop buffer.length = rest)
    (hcalls : rest.length < calls) :
    Renders (visitPrefixes t table visit query calls node s buffer) buffer
      (t.visitPrefixes x (fun s found ↦ visit s found.key found.toPrefixMatch) rest node buffer
        s) := by
  induction calls generalizing node s buffer rest with
  | zero => exact absurd hcalls (Nat.not_lt_zero _)
  | succ calls ih =>
    rw [visitPrefixes]
    cases rest with
    | nil =>
      rw [List.getElem?_eq_none (List.drop_eq_nil_iff.mp hrest)]
      exact ⟨buffer, rfl, fun _ ↦ rfl⟩
    | cons b rest =>
      obtain ⟨hb, hlonger⟩ := getElem?_and_drop_of_drop_eq_cons hrest
      rw [hb]
      refine renders_overHits htable hnodes (fun s c hc ↦ ?_) s
      have hview : (keyId? t c).map (PrefixMatch.mk c · (buffer.length + 1)) =
          (t.matchAt c (buffer ++ [t.label c])).map (·.toPrefixMatch) := by
        simp [keyId?_eq hkeys, Trie.matchAt, Function.comp_def, PredictiveMatch.toPrefixMatch]
      dsimp only
      rw [hview]
      exact (renders_visitNode fun s ↦
        ih c s (hlonger _) (Nat.lt_of_succ_lt_succ hcalls)).popUnlessStopped

theorem expandedPrefixSearch_eq_ok (visit : Visitor σ PrefixMatch) {query : Key} {calls : ℕ}
    (hcalls : query.length < calls) (s : σ) :
    expandedPrefixSearch t table calls query visit s =
      .ok (t.expandedPrefixSearch query x
        (fun s found ↦ visit s found.key found.toPrefixMatch) s) :=
  (renders_visitPrefixes htable hnodes hkeys visit Trie.root s rfl hcalls).map_eq

variable {keys : List Key} (ht : t.Stores keys)

include ht

omit htable in
theorem renders_visitBelow (visit : Visitor σ PredictiveMatch) {calls levels i : ℕ} {path : Key}
    (hpath : (nodePaths keys)[i]? = some path) (hcalls : Reaches keys calls path)
    (hlevels : Reaches keys levels path) (s : σ) :
    Renders (visitBelow t visit calls i s path) path
      (t.visitBelow (fun s found ↦ visit s found.key found) levels i path s) := by
  induction calls generalizing levels i path s with
  | zero => exact absurd hcalls (not_reaches_zero hpath)
  | succ calls ih =>
    cases levels with
    | zero => exact absurd hlevels (not_reaches_zero hpath)
    | succ levels =>
      have hview : (t.keyId? i).map (PredictiveMatch.mk path i ·) = (t.matchAt i path).map id := by
        rw [Option.map_id, id, Trie.matchAt]
      rw [visitBelow, Trie.visitBelow, keyId?_eq hkeys, children_eq hnodes, hview]
      refine renders_visitNode (fun s ↦ renders_untilStopped (fun s c hc ↦ ?_) s)
      dsimp only
      rw [label_eq_ok (Trie.lt_numNodes_of_mem_children hc), ok_bind]
      exact
        (ih (Trie.getElem?_of_mem_children ht hpath hc) (hcalls.child _) (hlevels.child _) s).pop

/-- The call that comes to the end of the query makes one more for the same node. -/
theorem renders_visitExpanded (visit : Visitor σ PredictiveMatch) {query rest path : Key}
    {calls levels i : ℕ} (hpath : (nodePaths keys)[i]? = some path)
    (hrest : query.drop path.length = rest) (hcalls : Reaches keys calls path)
    (hlevels : (nodePaths keys).length ≤ levels) (s : σ) :
    Renders (visitExpanded t table visit query (calls + 1) i s path) path
      (t.visitExpanded x (fun s found ↦ visit s found.key found) levels rest i path s) := by
  induction calls generalizing rest i path s with
  | zero => exact absurd hcalls (not_reaches_zero hpath)
  | succ calls ih =>
    rw [visitExpanded]
    cases rest with
    | nil =>
      rw [List.getElem?_eq_none (List.drop_eq_nil_iff.mp hrest)]
      exact renders_visitBelow hnodes hkeys ht visit hpath hcalls (reaches_of_length_le hlevels _) s
    | cons b rest =>
      obtain ⟨hb, hlonger⟩ := getElem?_and_drop_of_drop_eq_cons hrest
      rw [hb]
      exact renders_overHits htable hnodes (fun s c hc ↦
        (ih (Trie.getElem?_of_mem_children ht hpath hc) (hlonger _) (hcalls.child _) s).pop) s

theorem expandedPredictiveSearch_eq_ok (visit : Visitor σ PredictiveMatch) {calls : ℕ}
    (hcalls : t.numNodes < calls) (query : Key) (s : σ) :
    expandedPredictiveSearch t table calls query visit s =
      .ok (t.expandedPredictiveSearch query x (fun s found ↦ visit s found.key found) s) := by
  have hlength := Trie.numNodes_eq_length ht
  obtain ⟨calls, rfl⟩ : ∃ depth, calls = depth + 1 := ⟨calls - 1, by omega⟩
  exact (renders_visitExpanded htable hnodes hkeys ht visit (getElem?_root keys) rfl
    (reaches_of_length_le (by omega) _) (hlength ▸ hnodes.le) s).map_eq

end Walks

end SharedBuffer

/-! ### Tries that were built -/

variable {keys : List Key}

/-- A key is spelled by the bytes of a query if each of them stands for the byte at its place. -/
theorem Expansion.spells_ofAdds_iff {adds : List (UInt8 × List UInt8)} {query key : Key} :
    (Expansion.ofAdds adds).Spells query key ↔
      ∀ (i : ℕ) (b label : UInt8), query[i]? = some b → key[i]? = some label →
        StandsFor adds b label := by
  simp only [Spells, hits_ofAdds_iff]

/-- In a trie that was built, a search for the prefixes of a query with expanded bytes shows a
visitor what a scan of these keys shows it: all stored keys, except the empty one, that are no
longer than the query and spelled by bytes standing for those of the query, in ascending order, each
with its node, its id and its length. The search with one buffer does the same. -/
theorem expandedPrefixSearch_of_build {bytes : List UInt8} (hbytes : build keys = .ok bytes) :
    ∃ t, Trie.ofBytes bytes = .ok t ∧ ∀ (adds : List (UInt8 × List UInt8)) (query : Key),
      ∃ listed : List PredictiveMatch,
        t.Lists (fun key ↦ key ∈ keys ∧ key ≠ [] ∧ key.length ≤ query.length ∧
          ∀ (i : ℕ) (b label : UInt8), query[i]? = some b → key[i]? = some label →
            StandsFor adds b label) listed ∧
        (∀ (σ : Type) (visit : Visitor σ) (s : σ),
          t.expandedPrefixSearch query (Expansion.ofAdds adds) visit s = scan visit listed s) ∧
        ∀ (σ : Type) (visit : SharedBuffer.Visitor σ PrefixMatch) (calls : ℕ) (s : σ),
          query.length < calls →
            SharedBuffer.expandedPrefixSearch t (ExpansionTable.ofAdds adds) calls query visit s =
              .ok (scan (fun s found ↦ visit s found.key found.toPrefixMatch) listed s) := by
  obtain ⟨t, hopen, ht, hnodes, hkeys⟩ := exists_stores_lt_of_build hbytes
  refine ⟨t, hopen, fun adds query ↦
    ⟨t.prefixesBelow (Expansion.ofAdds adds) query Trie.root [], ?_,
      fun σ visit s ↦ Trie.expandedPrefixSearch_eq_scan ht s, fun σ visit calls s hcalls ↦ ?_⟩⟩
  · simp only [← Expansion.spells_ofAdds_iff]
    exact Trie.lists_prefixesBelow ht
  · rw [SharedBuffer.expandedPrefixSearch_eq_ok (ExpansionTable.isHit_ofAdds adds) hnodes hkeys
      visit hcalls, Trie.expandedPrefixSearch_eq_scan ht]

/-- The keys `ab`, `adc`, `abc`, `ad` and `b`. -/
def fewKeys : List Key := [[97, 98], [97, 100, 99], [97, 98, 99], [97, 100], [98]]

/-- Culls `ab`, stops at `ad` and goes on at all other keys. -/
def answerTo (key : Key) : SearchControl :=
  if key = [97, 98] then .cull else if key = [97, 100] then .done else .goOn

/-- With `ab` culled the scan leaves out `abc`, and it stops before `adc`. -/
theorem scan_answerTo {α : Type} (view : Key → α) {listed : List PredictiveMatch}
    (hkeys : listed.map (·.key) = [[97, 98], [97, 98, 99], [97, 100], [97, 100, 99]]) :
    scan (fun seen found ↦ (seen ++ [view found.key], answerTo found.key)) listed [] =
      [view [97, 98], view [97, 100]] := by
  obtain ⟨first, _, rfl, hfirst, hkeys⟩ := List.map_eq_cons_iff.mp hkeys
  obtain ⟨second, _, rfl, hsecond, hkeys⟩ := List.map_eq_cons_iff.mp hkeys
  obtain ⟨third, _, rfl, hthird, -⟩ := List.map_eq_cons_iff.mp hkeys
  simp [scan, scanFrom, GoesOn, answerTo, hfirst, hsecond, hthird]

/-- Where `b` stands for `d` too, the keys spelled by front parts of `abc` are `ab`, `abc`, `ad` and
`adc`. -/
theorem expandedPrefixSearch_of_build_few :
    ∃ bytes, build fewKeys = .ok bytes ∧ ∃ t, Trie.ofBytes bytes = .ok t ∧
      t.expandedPrefixSearch [97, 98, 99] (Expansion.ofAdds [(98, [100])])
          (fun seen found ↦ (seen ++ [found.key], answerTo found.key)) [] = [[97, 98], [97, 100]] ∧
      SharedBuffer.expandedPrefixSearch t (ExpansionTable.ofAdds [(98, [100])]) 4 [97, 98, 99]
          (fun seen buffer found ↦ (seen ++ [(buffer, found.length)], answerTo buffer)) [] =
        .ok [([97, 98], 2), ([97, 100], 2)] := by
  obtain ⟨bytes, hbytes⟩ := (build_eq_ok_iff fewKeys).mpr (by decide)
  obtain ⟨t, hopen, hsearch⟩ := expandedPrefixSearch_of_build hbytes
  obtain ⟨listed, hlisted, htotal, hshared⟩ := hsearch [(98, [100])] [97, 98, 99]
  simp only [← Expansion.spells_ofAdds_iff] at hlisted
  have hspelled : ∀ key ∈ fewKeys, key ≠ [] ∧ key.length ≤ 3 ∧
      (Expansion.ofAdds [(98, [100])]).Spells [97, 98, 99] key →
        key ∈ ([[97, 98], [97, 98, 99], [97, 100], [97, 100, 99]] : List Key) := by decide
  have hback : ∀ key ∈ ([[97, 98], [97, 98, 99], [97, 100], [97, 100, 99]] : List Key),
      key ∈ fewKeys ∧ key ≠ [] ∧ key.length ≤ 3 ∧
        (Expansion.ofAdds [(98, [100])]).Spells [97, 98, 99] key := by decide
  have hkeys := hlisted.map_key_eq (by decide) fun key ↦
    ⟨fun ⟨hkey, hshown⟩ ↦ hspelled key hkey hshown, hback key⟩
  refine ⟨bytes, hbytes, t, hopen, ?_, ?_⟩
  · rw [htotal]
    exact scan_answerTo id hkeys
  · rw [hshared _ _ 4 _ (by decide)]
    exact congrArg Except.ok (scan_answerTo (fun key ↦ (key, key.length)) hkeys)

/-- In a trie that was built, a search for the keys that go on from a query with expanded bytes
shows a visitor what a scan of these keys shows it: all stored keys that are no shorter than the
query and at its places spelled by bytes standing for those of the query, in ascending order, each
with its node and its id. The search with one buffer does the same, and the buffer that it shows is
the key. Where no labels are added and the visitor always goes on, it is shown what a predictive
search finds, and what the walk below the query gives. -/
theorem expandedPredictiveSearch_of_build {bytes : List UInt8} (hbytes : build keys = .ok bytes) :
    ∃ t, Trie.ofBytes bytes = .ok t ∧
      (∀ (adds : List (UInt8 × List UInt8)) (query : Key), ∃ listed : List PredictiveMatch,
        t.Lists (fun key ↦ key ∈ keys ∧ query.length ≤ key.length ∧
          ∀ (i : ℕ) (b label : UInt8), query[i]? = some b → key[i]? = some label →
            StandsFor adds b label) listed ∧
        (adds = [] → listed = t.predictiveSearch query) ∧
        (∀ (σ : Type) (visit : Visitor σ) (s : σ),
          t.expandedPredictiveSearch query (Expansion.ofAdds adds) visit s =
            scan visit listed s) ∧
        ∀ (σ : Type) (visit : SharedBuffer.Visitor σ PredictiveMatch) (calls : ℕ) (s : σ),
          t.numNodes < calls →
            SharedBuffer.expandedPredictiveSearch t (ExpansionTable.ofAdds adds) calls query visit
              s = .ok (scan (fun s found ↦ visit s found.key found) listed s)) ∧
      ∀ query : Key,
        (∀ (σ : Type) (visit : Visitor σ), (∀ s found, (visit s found).2 = .goOn) → ∀ s : σ,
          t.expandedPredictiveSearch query .empty visit s =
            (t.predictiveSearch query).foldl (fun s found ↦ (visit s found).1) s) ∧
        ∃ walk, SubtreeWalk.below t query = .ok walk ∧
          SubtreeWalk.Yields t query.length walk (t.predictiveSearch query) := by
  obtain ⟨t, hopen, ht, hnodes, hkeys⟩ := exists_stores_lt_of_build hbytes
  refine ⟨t, hopen, fun adds query ↦
    ⟨t.expandedBelow (Expansion.ofAdds adds) Trie.levelBound query Trie.root [], ?_, ?_,
      fun σ visit s ↦ Trie.expandedPredictiveSearch_eq_scan ht s, fun σ visit calls s hcalls ↦ ?_⟩,
    fun query ↦ ⟨fun σ visit hvisit s ↦ ?_, SubtreeWalk.exists_below_yields hnodes hkeys ht query⟩⟩
  · simp only [← Expansion.spells_ofAdds_iff]
    exact Trie.lists_expandedBelow ht hnodes
  · rintro rfl
    exact Trie.expandedBelow_empty ht hnodes
  · rw [SharedBuffer.expandedPredictiveSearch_eq_ok (ExpansionTable.isHit_ofAdds adds) hnodes hkeys
      ht visit hcalls, Trie.expandedPredictiveSearch_eq_scan ht]
  · rw [Trie.expandedPredictiveSearch_eq_scan ht, Trie.expandedBelow_empty ht hnodes,
      scan_of_goOn hvisit]

/-- Where `b` stands for `d` too, the keys that go on from `ab` are `ab`, `abc`, `ad` and `adc`, and
where it does not, they are `ab` and `abc`. -/
theorem expandedPredictiveSearch_of_build_few :
    ∃ bytes, build fewKeys = .ok bytes ∧ ∃ t, Trie.ofBytes bytes = .ok t ∧
      t.expandedPredictiveSearch [97, 98] (Expansion.ofAdds [(98, [100])])
          (fun seen found ↦ (seen ++ [found.key], answerTo found.key)) [] = [[97, 98], [97, 100]] ∧
      SharedBuffer.expandedPredictiveSearch t (ExpansionTable.ofAdds [(98, [100])])
          (t.numNodes + 1) [97, 98]
          (fun seen buffer found ↦ (seen ++ [(buffer, found.key)], answerTo buffer)) [] =
        .ok [([97, 98], [97, 98]), ([97, 100], [97, 100])] ∧
      t.expandedPredictiveSearch [97, 98] .empty
          (fun seen found ↦ (seen ++ [found], .goOn)) [] = t.predictiveSearch [97, 98] := by
  obtain ⟨bytes, hbytes⟩ := (build_eq_ok_iff fewKeys).mpr (by decide)
  obtain ⟨t, hopen, hsearch, huntouched⟩ := expandedPredictiveSearch_of_build hbytes
  obtain ⟨listed, hlisted, -, htotal, hshared⟩ := hsearch [(98, [100])] [97, 98]
  simp only [← Expansion.spells_ofAdds_iff] at hlisted
  have hspelled : ∀ key ∈ fewKeys, 2 ≤ key.length ∧
      (Expansion.ofAdds [(98, [100])]).Spells [97, 98] key →
        key ∈ ([[97, 98], [97, 98, 99], [97, 100], [97, 100, 99]] : List Key) := by decide
  have hback : ∀ key ∈ ([[97, 98], [97, 98, 99], [97, 100], [97, 100, 99]] : List Key),
      key ∈ fewKeys ∧ 2 ≤ key.length ∧
        (Expansion.ofAdds [(98, [100])]).Spells [97, 98] key := by decide
  have hkeys := hlisted.map_key_eq (by decide) fun key ↦
    ⟨fun ⟨hkey, hshown⟩ ↦ hspelled key hkey hshown, hback key⟩
  refine ⟨bytes, hbytes, t, hopen, ?_, ?_, ?_⟩
  · rw [htotal]
    exact scan_answerTo id hkeys
  · rw [hshared _ _ _ _ (Nat.lt_succ_self _)]
    exact congrArg Except.ok (scan_answerTo (fun key ↦ (key, key)) hkeys)
  · rw [(huntouched [97, 98]).1 _ _ (fun _ _ ↦ rfl)]
    simp [← List.flatMap_def]

end KanaKanji.Louds
