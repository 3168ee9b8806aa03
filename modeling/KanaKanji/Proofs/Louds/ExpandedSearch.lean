import Mathlib
import KanaKanji.Proofs.Louds.Enumeration
import KanaKanji.Proofs.Louds.Scan

/-!
# Searches with expanded bytes as scans

A search with expanded bytes goes down from a node to the children whose labels the next byte of the
query stands for. Without a visitor it would list the keys on its way (`prefixesBelow`), or the keys
below the nodes that it reaches (`expandedBelow`). In a trie that stores keys these are the ones
that the bytes of the query stand for (`mem_prefixesBelow_iff`, `mem_expandedBelow_iff`), in
ascending order.

What is listed below a child begins with the path of the child, and keys below one child do not go
on as keys below another. So a key that was culled below one child is of no account below the next,
and the search shows a visitor what a scan of the list shows it (`expandedPrefixSearch_eq_scan`,
`expandedPredictiveSearch_eq_scan`).
-/

set_option autoImplicit false

namespace KanaKanji.Louds

/-! ### Bytes that stand for bytes -/

/-- Each byte of the query stands for the byte at its place, as far as both strings reach. -/
def Expansion.Spells (x : Expansion) (query key : Key) : Prop :=
  ∀ (i : ℕ) (b label : UInt8),
    query[i]? = some b → key[i]? = some label → x.hits b label = true

namespace Expansion

variable {x : Expansion} {query tail : Key}

theorem spells_nil_left : x.Spells [] tail := by
  intro i b label hb
  simp at hb

theorem spells_nil_right : x.Spells query [] := by
  intro i b label _ hlabel
  simp at hlabel

theorem spells_cons_iff {b label : UInt8} :
    x.Spells (b :: query) (label :: tail) ↔ x.hits b label = true ∧ x.Spells query tail := by
  constructor
  · intro hspells
    exact ⟨hspells 0 b label rfl rfl, fun i ↦ hspells (i + 1)⟩
  · rintro ⟨hhit, hspells⟩ i b' label' hb hlabel
    cases i with
    | zero =>
      obtain rfl : b = b' := by simpa using hb
      obtain rfl : label = label' := by simpa using hlabel
      exact hhit
    | succ i => exact hspells i b' label' hb hlabel

theorem all_zip_iff_spells {key : Key} :
    (query.zip key).all (fun pair ↦ x.hits pair.1 pair.2) = true ↔ x.Spells query key := by
  rw [List.all_eq_true]
  constructor
  · intro hzip i b label hb hlabel
    exact hzip (b, label) (List.mem_of_getElem? (List.getElem?_zip_eq_some.mpr ⟨hb, hlabel⟩))
  · intro hspells pair hpair
    obtain ⟨i, hi⟩ := List.getElem?_of_mem hpair
    obtain ⟨hb, hlabel⟩ := List.getElem?_zip_eq_some.mp hi
    exact hspells i _ _ hb hlabel

instance (query key : Key) : Decidable (x.Spells query key) :=
  decidable_of_iff _ all_zip_iff_spells

/-- Where bytes stand for themselves only, a string is spelled by what it begins with. -/
theorem spells_empty_iff {key : Key} :
    query.length ≤ key.length ∧ Expansion.empty.Spells query key ↔ query <+: key := by
  have hempty : ∀ b label : UInt8, Expansion.empty.hits b label = true ↔ b = label := by
    simp [hits, empty]
  simp only [Spells, hempty, List.prefix_iff_getElem]
  constructor
  · rintro ⟨hlength, hspells⟩
    exact ⟨hlength, fun i hi ↦ hspells i _ _ (List.getElem?_eq_getElem hi)
      (List.getElem?_eq_getElem (hi.trans_le hlength))⟩
  · rintro ⟨hlength, hsame⟩
    refine ⟨hlength, fun i b label hb hlabel ↦ ?_⟩
    obtain ⟨hi, rfl⟩ := List.getElem?_eq_some_iff.mp hb
    obtain ⟨_, rfl⟩ := List.getElem?_eq_some_iff.mp hlabel
    exact hsame i hi

end Expansion

/-! ### What the searches list -/

namespace Trie

section Listed

variable (t : Trie) (x : Expansion)

/-- The children of a node whose labels a byte stands for. -/
def hitChildren (b : UInt8) (node : ℕ) : List ℕ :=
  (t.children node).filter fun child ↦ x.hits b (t.label child)

/-- The keys below a node that bytes standing for a front part of the query spell. -/
def prefixesBelow : (query : Key) → (node : ℕ) → (key : Key) → List PredictiveMatch
  | [], _, _ => []
  | b :: rest, node, key =>
    (t.hitChildren x b node).flatMap fun child ↦
      (t.matchAt child (key ++ [t.label child])).toList ++
        prefixesBelow rest child (key ++ [t.label child])

/-- The keys at and below the nodes that bytes standing for the query lead to. -/
def expandedBelow (levels : ℕ) : (query : Key) → (node : ℕ) → (key : Key) → List PredictiveMatch
  | [], node, key => t.keysBelow levels node key
  | b :: rest, node, key =>
    (t.hitChildren x b node).flatMap fun child ↦
      expandedBelow levels rest child (key ++ [t.label child])

end Listed

variable {keys : List Key} {t : Trie} {x : Expansion} (ht : t.Stores keys)

include ht

section Listed

variable {path : Key} {i : ℕ} (hpath : (nodePaths keys)[i]? = some path)

include hpath

theorem mem_hitChildren_iff {b : UInt8} {c : ℕ} :
    c ∈ t.hitChildren x b i ↔
      ∃ label, x.hits b label = true ∧ (nodePaths keys)[c]? = some (path ++ [label]) := by
  rw [hitChildren, List.mem_filter]
  constructor
  · rintro ⟨hc, hhit⟩
    exact ⟨t.label c, hhit, getElem?_of_mem_children ht hpath hc⟩
  · rintro ⟨label, hhit, hc⟩
    exact ⟨(mem_children_iff ht hpath).mpr ⟨label, hc⟩, by rwa [label_eq ht hc]⟩

theorem getElem?_of_mem_hitChildren {b : UInt8} {c : ℕ} (hc : c ∈ t.hitChildren x b i) :
    (nodePaths keys)[c]? = some (path ++ [t.label c]) :=
  getElem?_of_mem_children ht hpath (List.mem_of_mem_filter hc)

/-- A search that goes on at each child that the byte stands for lists the keys that go on with such
a label, as its searches from the children do. -/
theorem mem_flatMap_hitChildren_iff {b : UInt8} {row : ℕ → List PredictiveMatch}
    (listed : UInt8 → Key → Prop) {found : PredictiveMatch}
    (hrow : ∀ c label, (nodePaths keys)[c]? = some (path ++ [label]) →
      (found ∈ row c ↔ ∃ tail, found.key = path ++ [label] ++ tail ∧ listed label tail ∧
        found.Locates keys)) :
    found ∈ (t.hitChildren x b i).flatMap row ↔
      ∃ label tail, found.key = path ++ label :: tail ∧ x.hits b label = true ∧
        listed label tail ∧ found.Locates keys := by
  simp only [List.mem_flatMap, mem_hitChildren_iff ht hpath]
  constructor
  · rintro ⟨c, ⟨label, hhit, hc⟩, hmem⟩
    obtain ⟨tail, hkey, hlisted, hfound⟩ := (hrow c label hc).mp hmem
    exact ⟨label, tail, by rw [hkey, List.append_assoc, List.singleton_append], hhit, hlisted,
      hfound⟩
  · rintro ⟨label, tail, hkey, hhit, hlisted, hfound⟩
    have hlonger : path ++ [label] ++ tail = found.key := by
      rw [hkey, List.append_assoc, List.singleton_append]
    obtain ⟨c, hc⟩ : ∃ c : ℕ, (nodePaths keys)[c]? = some (path ++ [label]) :=
      exists_getElem?_of_append (by rw [hlonger]; exact hfound.node_eq)
    exact ⟨c, ⟨label, hhit, hc⟩, (hrow c label hc).mpr ⟨tail, hlonger.symm, hlisted, hfound⟩⟩

theorem mem_prefixesBelow_iff {query : Key} {found : PredictiveMatch} :
    found ∈ t.prefixesBelow x query i path ↔
      ∃ tail, found.key = path ++ tail ∧ tail ≠ [] ∧ tail.length ≤ query.length ∧
        x.Spells query tail ∧ found.Locates keys := by
  induction query generalizing i path with
  | nil =>
    rw [prefixesBelow]
    refine iff_of_false List.not_mem_nil ?_
    rintro ⟨tail, -, hne, hlength, -⟩
    exact hne (List.eq_nil_of_length_eq_zero (Nat.le_zero.mp hlength))
  | cons b rest ih =>
    rw [prefixesBelow, mem_flatMap_hitChildren_iff ht hpath
      (fun _ tail ↦ tail.length ≤ rest.length ∧ x.Spells rest tail)]
    · constructor
      · rintro ⟨label, tail, hkey, hhit, ⟨hlength, hspells⟩, hfound⟩
        exact ⟨label :: tail, hkey, List.cons_ne_nil _ _, Nat.succ_le_succ hlength,
          Expansion.spells_cons_iff.mpr ⟨hhit, hspells⟩, hfound⟩
      · rintro ⟨tail, hkey, hne, hlength, hspells, hfound⟩
        obtain ⟨label, tail, rfl⟩ := List.exists_cons_of_ne_nil hne
        obtain ⟨hhit, hspells⟩ := Expansion.spells_cons_iff.mp hspells
        exact ⟨label, tail, hkey, hhit, ⟨Nat.le_of_succ_le_succ hlength, hspells⟩, hfound⟩
    · intro c label hc
      rw [label_eq ht hc, List.mem_append, mem_matchAt_iff ht hc, ih hc]
      constructor
      · rintro (⟨hkey, hfound⟩ | ⟨tail, hkey, -, hlength, hspells, hfound⟩)
        · exact ⟨[], by rw [hkey, List.append_nil],
            ⟨Nat.zero_le _, Expansion.spells_nil_right⟩, hfound⟩
        · exact ⟨tail, hkey, ⟨hlength, hspells⟩, hfound⟩
      · rintro ⟨tail, hkey, ⟨hlength, hspells⟩, hfound⟩
        rcases eq_or_ne tail [] with rfl | hne
        · exact .inl ⟨by rw [hkey, List.append_nil], hfound⟩
        · exact .inr ⟨tail, hkey, hne, hlength, hspells, hfound⟩

theorem mem_expandedBelow_iff {levels : ℕ} {query : Key} {found : PredictiveMatch} :
    found ∈ t.expandedBelow x levels query i path ↔
      ∃ tail, found.key = path ++ tail ∧ query.length ≤ tail.length ∧
        tail.length < query.length + levels ∧ x.Spells query tail ∧ found.Locates keys := by
  induction query generalizing i path with
  | nil =>
    rw [expandedBelow, mem_keysBelow_iff ht hpath]
    constructor
    · rintro ⟨⟨tail, hkey⟩, hlength, hfound⟩
      rw [← hkey, List.length_append] at hlength
      exact ⟨tail, hkey.symm, Nat.zero_le _, by simpa using hlength,
        Expansion.spells_nil_left, hfound⟩
    · rintro ⟨tail, hkey, -, hlength, -, hfound⟩
      refine ⟨⟨tail, hkey.symm⟩, ?_, hfound⟩
      rw [hkey, List.length_append]
      simpa using hlength
  | cons b rest ih =>
    rw [expandedBelow, mem_flatMap_hitChildren_iff ht hpath
      (fun _ tail ↦ rest.length ≤ tail.length ∧ tail.length < rest.length + levels ∧
        x.Spells rest tail)]
    · constructor
      · rintro ⟨label, tail, hkey, hhit, ⟨hlong, hbound, hspells⟩, hfound⟩
        refine ⟨label :: tail, hkey, Nat.succ_le_succ hlong, ?_,
          Expansion.spells_cons_iff.mpr ⟨hhit, hspells⟩, hfound⟩
        simp only [List.length_cons]
        omega
      · rintro ⟨tail, hkey, hlong, hbound, hspells, hfound⟩
        obtain ⟨label, tail, rfl⟩ :=
          List.exists_cons_of_length_pos (l := tail) ((Nat.succ_pos _).trans_le hlong)
        obtain ⟨hhit, hspells⟩ := Expansion.spells_cons_iff.mp hspells
        simp only [List.length_cons] at hlong hbound
        exact ⟨label, tail, hkey, hhit, ⟨by omega, by omega, hspells⟩, hfound⟩
    · intro c label hc
      rw [label_eq ht hc, ih hc]
      simp only [and_assoc]

/-- What is listed below a child begins with the path of the child. -/
theorem append_label_isPrefix_of_mem_prefixesBelow (query : Key) {b : UInt8} :
    ∀ c ∈ t.hitChildren x b i,
      ∀ found ∈ (t.matchAt c (path ++ [t.label c])).toList ++
          t.prefixesBelow x query c (path ++ [t.label c]),
        path ++ [t.label c] <+: found.key := by
  intro c hc found hfound
  have hchild := getElem?_of_mem_hitChildren ht hpath hc
  rcases List.mem_append.mp hfound with hhere | hbelow
  · rw [((mem_matchAt_iff ht hchild).mp hhere).1]
  · obtain ⟨tail, hkey, -⟩ := (mem_prefixesBelow_iff ht hchild).mp hbelow
    exact ⟨tail, hkey.symm⟩

theorem append_label_isPrefix_of_mem_expandedBelow (levels : ℕ) (query : Key) {b : UInt8} :
    ∀ c ∈ t.hitChildren x b i,
      ∀ found ∈ t.expandedBelow x levels query c (path ++ [t.label c]),
        path ++ [t.label c] <+: found.key := by
  intro c hc found hfound
  obtain ⟨tail, hkey, -⟩ :=
    (mem_expandedBelow_iff ht (getElem?_of_mem_hitChildren ht hpath hc)).mp hfound
  exact ⟨tail, hkey.symm⟩

theorem pairwise_prefixesBelow {query : Key} :
    (t.prefixesBelow x query i path).Pairwise fun found other ↦ found.key < other.key := by
  induction query generalizing i path with
  | nil => exact List.Pairwise.nil
  | cons b rest ih =>
    refine pairwise_flatMap_children ht hpath List.filter_sublist
      (append_label_isPrefix_of_mem_prefixesBelow ht hpath rest) fun c hc ↦ ?_
    have hchild := getElem?_of_mem_hitChildren ht hpath hc
    refine List.pairwise_append.mpr ⟨pairwise_matchAt c _, ih hchild, ?_⟩
    intro found hfound other hother
    obtain ⟨hhere, -⟩ := (mem_matchAt_iff ht hchild).mp hfound
    obtain ⟨tail, hkey, hne, -⟩ := (mem_prefixesBelow_iff ht hchild).mp hother
    obtain ⟨label, tail, rfl⟩ := List.exists_cons_of_ne_nil hne
    rw [hhere, hkey]
    exact lt_append_cons _ _ _

theorem pairwise_expandedBelow {levels : ℕ} {query : Key} :
    (t.expandedBelow x levels query i path).Pairwise fun found other ↦ found.key < other.key := by
  induction query generalizing i path with
  | nil => exact pairwise_keysBelow ht hpath
  | cons b rest ih =>
    exact pairwise_flatMap_children ht hpath List.filter_sublist
      (append_label_isPrefix_of_mem_expandedBelow ht hpath levels rest)
      fun c hc ↦ ih (getElem?_of_mem_hitChildren ht hpath hc)

end Listed

/-! ### Visits as scans -/

section Visits

variable {σ : Type} {visit : Visitor σ}

/-- Keys that begin with the paths of different children do not go on as each other. -/
theorem pairwise_not_goesOn_children {path : Key} {i : ℕ}
    (hpath : (nodePaths keys)[i]? = some path) {children : List ℕ}
    (hchildren : children.Sublist (t.children i)) {row : ℕ → List PredictiveMatch}
    (hrow : ∀ c ∈ children, ∀ found ∈ row c, path ++ [t.label c] <+: found.key) :
    children.Pairwise fun c d ↦
      ∀ found ∈ row c, ∀ other ∈ row d, ¬ GoesOn found.key other.key := by
  have hlabels := (List.pairwise_map.mp (pairwise_label_children ht hpath)).sublist hchildren
  refine hlabels.imp_of_mem fun {c d} hc hd hlt ↦ ?_
  rintro found hfound other hother ⟨hgoesOn, -⟩
  have hsame := List.prefix_of_prefix_length_le ((hrow c hc found hfound).trans hgoesOn)
    (hrow d hd other hother) (by simp)
  exact Std.ne_of_lt hlt (by simpa using hsame)

omit ht in
/-- A visit of a node is a scan, if the visit of what lies below it is one. -/
theorem visitNode_eq_scanFrom {node : ℕ} {key : Key} {below : σ → σ × Bool}
    {listed : List PredictiveMatch} (hbelow : ∀ s, below s = scanFrom visit [] listed s)
    (hlisted : ∀ found ∈ listed, GoesOn key found.key) (s : σ) :
    t.visitNode visit node key s below =
      scanFrom visit [] ((t.matchAt node key).toList ++ listed) s := by
  rw [visitNode, matchAt]
  rcases t.keyId? node with _ | id
  · exact hbelow s
  · rw [Option.map_some, Option.toList_some, List.singleton_append, scanFrom_cons_of_goesOn hlisted]
    dsimp only
    rcases visit s ⟨key, node, id⟩ with ⟨s, _ | _ | _⟩
    · exact hbelow s
    · rfl
    · rfl

omit ht in
/-- What is listed below the children of a node goes on from the path of the node. -/
theorem goesOn_of_mem_flatMap {path : Key} {children : List ℕ} {row : ℕ → List PredictiveMatch}
    (hrow : ∀ c ∈ children, ∀ found ∈ row c, path ++ [t.label c] <+: found.key) :
    ∀ found ∈ children.flatMap row, GoesOn path found.key := by
  intro found hfound
  obtain ⟨c, hc, hmem⟩ := List.mem_flatMap.mp hfound
  obtain ⟨tail, htail⟩ := hrow c hc found hmem
  rw [← htail, List.append_assoc, List.singleton_append]
  exact ⟨List.prefix_append _ _, by simp⟩

theorem visitPrefixes_eq_scanFrom {path : Key} {i : ℕ} (hpath : (nodePaths keys)[i]? = some path)
    (query : Key) (s : σ) :
    t.visitPrefixes x visit query i path s =
      scanFrom visit [] (t.prefixesBelow x query i path) s := by
  induction query generalizing i path s with
  | nil => rfl
  | cons b rest ih =>
    have hrow := append_label_isPrefix_of_mem_prefixesBelow (x := x) (b := b) ht hpath rest
    refine untilStopped_eq_scanFrom (fun c hc s ↦ ?_)
      (pairwise_not_goesOn_children ht hpath List.filter_sublist hrow) s
    have hchild := getElem?_of_mem_hitChildren ht hpath hc
    refine visitNode_eq_scanFrom (ih hchild) (fun found hfound ↦ ?_) s
    obtain ⟨tail, hkey, hne, -⟩ := (mem_prefixesBelow_iff ht hchild).mp hfound
    rw [hkey]
    exact ⟨List.prefix_append _ _, by simpa using hne⟩

theorem visitBelow_eq_scanFrom {path : Key} {i : ℕ} (hpath : (nodePaths keys)[i]? = some path)
    (levels : ℕ) (s : σ) :
    t.visitBelow visit levels i path s = scanFrom visit [] (t.keysBelow levels i path) s := by
  induction levels generalizing i path s with
  | zero => rfl
  | succ levels ih =>
    have hrow : ∀ c ∈ t.children i, ∀ found ∈ t.keysBelow levels c (path ++ [t.label c]),
        path ++ [t.label c] <+: found.key := fun c hc found hfound ↦
      ((mem_keysBelow_iff ht (getElem?_of_mem_children ht hpath hc)).mp hfound).1
    exact visitNode_eq_scanFrom (fun s ↦ untilStopped_eq_scanFrom
      (fun c hc ↦ ih (getElem?_of_mem_children ht hpath hc))
      (pairwise_not_goesOn_children ht hpath (List.Sublist.refl _) hrow) s)
      (goesOn_of_mem_flatMap hrow) s

theorem visitExpanded_eq_scanFrom {path : Key} {i : ℕ} (hpath : (nodePaths keys)[i]? = some path)
    (levels : ℕ) (query : Key) (s : σ) :
    t.visitExpanded x visit levels query i path s =
      scanFrom visit [] (t.expandedBelow x levels query i path) s := by
  induction query generalizing i path s with
  | nil => exact visitBelow_eq_scanFrom ht hpath levels s
  | cons b rest ih =>
    have hrow := append_label_isPrefix_of_mem_expandedBelow (x := x) (b := b) ht hpath levels rest
    exact untilStopped_eq_scanFrom (fun c hc ↦ ih (getElem?_of_mem_hitChildren ht hpath hc))
      (pairwise_not_goesOn_children ht hpath List.filter_sublist hrow) s

end Visits

/-! ### The keys that are shown -/

/-- The matches are those of the keys that are to be shown, in ascending order, each with its node
and its id. -/
structure Lists (t : Trie) (shown : Key → Prop) (listed : List PredictiveMatch) : Prop where
  mem_iff : ∀ key, key ∈ listed.map (·.key) ↔ shown key
  ascending : (listed.map (·.key)).Pairwise (· < ·)
  located : ∀ found ∈ listed,
    t.exactMatch? found.key = some found.node ∧ t.keyId? found.node = some found.keyId

theorem lists_of_locates {shown : Key → Prop} {listed : List PredictiveMatch}
    (hmem : ∀ found, found ∈ listed ↔ shown found.key ∧ found.Locates keys)
    (hascending : listed.Pairwise fun found other ↦ found.key < other.key) :
    t.Lists (fun key ↦ key ∈ keys ∧ shown key) listed where
  mem_iff key := by
    simp only [List.mem_map, hmem]
    constructor
    · rintro ⟨found, ⟨hshown, hlocates⟩, rfl⟩
      exact ⟨hlocates.mem_keys, hshown⟩
    · rintro ⟨hkey, hshown⟩
      obtain ⟨node, id, hlocates⟩ := exists_locates hkey
      exact ⟨⟨key, node, id⟩, ⟨hshown, hlocates⟩, rfl⟩
  ascending := List.pairwise_map.mpr hascending
  located found hfound := by
    obtain ⟨-, hlocates⟩ := (hmem found).mp hfound
    exact ⟨(exactMatch?_eq_some_iff ht).mpr ⟨hlocates.node_eq, hlocates.mem_keys⟩,
      (keyId?_eq_some_iff ht hlocates.node_eq).mpr hlocates.keyId_eq⟩

omit ht in
/-- There is one way to list keys in ascending order. -/
theorem Lists.map_key_eq {shown : Key → Prop} {listed : List PredictiveMatch}
    (hlisted : t.Lists shown listed) {sorted : List Key} (hsorted : sorted.Pairwise (· < ·))
    (hmem : ∀ key, shown key ↔ key ∈ sorted) : listed.map (·.key) = sorted :=
  hlisted.ascending.eq_of_mem_iff hsorted fun key ↦ (hlisted.mem_iff key).trans (hmem key)

variable {σ : Type} {visit : Visitor σ} {query : Key}

theorem expandedPrefixSearch_eq_scan (s : σ) :
    t.expandedPrefixSearch query x visit s = scan visit (t.prefixesBelow x query root []) s := by
  rw [expandedPrefixSearch, visitPrefixes_eq_scanFrom ht (getElem?_root keys), scan]

theorem lists_prefixesBelow :
    t.Lists (fun key ↦ key ∈ keys ∧ key ≠ [] ∧ key.length ≤ query.length ∧ x.Spells query key)
      (t.prefixesBelow x query root []) := by
  refine lists_of_locates ht (fun found ↦ ?_) (pairwise_prefixesBelow ht (getElem?_root keys))
  simp only [mem_prefixesBelow_iff ht (getElem?_root keys), List.nil_append, and_assoc,
    exists_eq_left']

theorem expandedPredictiveSearch_eq_scan (s : σ) :
    t.expandedPredictiveSearch query x visit s =
      scan visit (t.expandedBelow x levelBound query root []) s := by
  rw [expandedPredictiveSearch, visitExpanded_eq_scanFrom ht (getElem?_root keys), scan]

section Levels

variable (hnodes : t.numNodes < levelBound)

include hnodes

/-- No path is longer than the levels that a search may go down. -/
theorem mem_expandedBelow_root_iff {found : PredictiveMatch} :
    found ∈ t.expandedBelow x levelBound query root [] ↔
      (query.length ≤ found.key.length ∧ x.Spells query found.key) ∧ found.Locates keys := by
  simp only [mem_expandedBelow_iff ht (getElem?_root keys), List.nil_append, exists_eq_left']
  constructor
  · rintro ⟨hlength, -, hspells, hfound⟩
    exact ⟨⟨hlength, hspells⟩, hfound⟩
  · rintro ⟨⟨hlength, hspells⟩, hfound⟩
    have hbound := length_lt_of_mem (List.mem_of_getElem? hfound.node_eq)
    rw [← numNodes_eq_length ht] at hbound
    exact ⟨hlength, by omega, hspells, hfound⟩

theorem lists_expandedBelow :
    t.Lists (fun key ↦ key ∈ keys ∧ query.length ≤ key.length ∧ x.Spells query key)
      (t.expandedBelow x levelBound query root []) :=
  lists_of_locates ht (fun _ ↦ mem_expandedBelow_root_iff ht hnodes)
    (pairwise_expandedBelow ht (getElem?_root keys))

/-- If bytes stand for themselves only, the search lists what a predictive search finds. -/
theorem expandedBelow_empty :
    t.expandedBelow .empty levelBound query root [] = t.predictiveSearch query := by
  have hsame : ∀ found, found ∈ t.expandedBelow .empty levelBound query root [] ↔
      found ∈ t.predictiveSearch query := by
    intro found
    rw [mem_expandedBelow_root_iff ht hnodes, mem_predictiveSearch_iff ht,
      Expansion.spells_empty_iff]
  have : Std.Irrefl fun found other : PredictiveMatch ↦ found.key < other.key :=
    ⟨fun _ ↦ List.lt_irrefl _⟩
  have : Std.Antisymm fun found other : PredictiveMatch ↦ found.key < other.key :=
    ⟨fun _ _ hlt hgt ↦ absurd hgt (List.lt_asymm hlt)⟩
  exact (pairwise_expandedBelow ht (getElem?_root keys)).eq_of_mem_iff
    (pairwise_predictiveSearch ht query) hsame

end Levels

end Trie

end KanaKanji.Louds
