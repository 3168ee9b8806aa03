import Mathlib
import KanaKanji.Louds.Trie
import KanaKanji.Proofs.Bits.RankSelect

/-!
# Links of any trie

What is said here holds of every trie that was accepted, whether or not it stores keys: its degree
bits may have any shape, as long as there is a one for each label.

A node is the child of the node that its one stands for: the number of ones before that bit is the
node, and the number of zeros before it tells the parent (`mem_children_iff_exists_bit`). So every
child is a node (`lt_numNodes_of_mem_children`), and the way up leads just to the nodes that a node
is a child of (`parent?_eq_some_iff`). What a node spells on the way up therefore leads down to it
again (`leads_of_reverseLookup?`).
-/

set_option autoImplicit false

namespace KanaKanji.Louds

namespace Trie

variable {t : Trie}

/-! ### Children by their bits -/

/-- A node without a zero of its own has no children. -/
theorem children_eq_nil {node : ℕ} (hnode : t.degrees.select0 node = none) :
    t.children node = [] := by
  rw [children, firstChildBit, hnode]
  dsimp only
  rw [t.degrees.runOfOnes_length]
  rfl

/-- The children of a node have the ones in a row behind its zero. -/
theorem children_eq_range'_of_select0 {node before : ℕ}
    (hnode : t.degrees.select0 node = some before) :
    t.children node =
      List.range' (t.degrees.rank1 (before + 1)) (t.degrees.runOfOnes (before + 1)) := by
  rw [children, firstChildBit, hnode]

/-- A node is a child of the node that has as many zeros before its one, without the zero of the
root's own edge. -/
theorem mem_children_iff_exists_bit {node child : ℕ} :
    child ∈ t.children node ↔ ∃ bit, t.degrees.get bit = true ∧ t.degrees.rank1 bit = child ∧
      t.degrees.rank0 bit = node + 1 := by
  constructor
  · intro hchild
    rcases hnode : t.degrees.select0 node with _ | before
    · rw [children_eq_nil hnode] at hchild
      exact absurd hchild List.not_mem_nil
    · rw [children_eq_range'_of_select0 hnode, List.mem_range'_1] at hchild
      obtain ⟨k, rfl⟩ : ∃ k, child = t.degrees.rank1 (before + 1) + k :=
        ⟨_, (Nat.add_sub_of_le hchild.1).symm⟩
      have hk : k < t.degrees.runOfOnes (before + 1) := by omega
      obtain ⟨hone, hzeros⟩ := t.degrees.lt_runOfOnes_iff.mp hk
      obtain ⟨hzero, hrank⟩ := t.degrees.select0_eq_some_iff.mp hnode
      rw [t.degrees.rank0_succ_of_zero hzero, hrank] at hzeros
      exact ⟨before + 1 + k, hone, t.degrees.rank1_add_of_lt_runOfOnes hk, hzeros⟩
  · rintro ⟨bit, hone, rfl, hrank⟩
    obtain ⟨before, hlt, hnode⟩ :=
      t.degrees.exists_select0_of_lt_rank0 (n := node) (i := bit) (by omega)
    obtain ⟨hzero, hbefore⟩ := t.degrees.select0_eq_some_iff.mp hnode
    obtain ⟨k, rfl⟩ : ∃ k, bit = before + 1 + k := ⟨_, (Nat.add_sub_of_le hlt).symm⟩
    -- No further zero stands between the zero of the node and the one, so they are in a row.
    have hk : k < t.degrees.runOfOnes (before + 1) := by
      refine t.degrees.lt_runOfOnes_iff.mpr ⟨hone, ?_⟩
      rw [hrank, t.degrees.rank0_succ_of_zero hzero, hbefore]
    rw [children_eq_range'_of_select0 hnode, List.mem_range'_1,
      t.degrees.rank1_add_of_lt_runOfOnes hk]
    omega

/-- Every child of a node is a node. -/
theorem lt_numNodes_of_mem_children {node child : ℕ} (hchild : child ∈ t.children node) :
    child < t.numNodes := by
  obtain ⟨bit, hone, rfl, -⟩ := mem_children_iff_exists_bit.mp hchild
  rw [numNodes, ← t.ones_degrees]
  exact t.degrees.rank1_lt_ones hone

/-- The way up leads to the nodes that a node is a child of, except for the root. -/
theorem parent?_eq_some_iff {node parent : ℕ} :
    t.parent? node = some parent ↔ node ≠ root ∧ node ∈ t.children parent := by
  rw [parent?, Option.ite_none_left_eq_some, Option.bind_eq_some_iff, not_or,
    mem_children_iff_exists_bit]
  simp only [BitVector.select1_eq_some_iff, Option.ite_none_left_eq_some, Option.some.injEq]
  constructor
  · rintro ⟨⟨hroot, -⟩, bit, ⟨hone, hrank⟩, hpos, hzeros⟩
    exact ⟨hroot, bit, hone, hrank, by omega⟩
  · rintro ⟨hroot, bit, hone, hrank, hzeros⟩
    have hnode : node < t.numNodes :=
      lt_numNodes_of_mem_children (mem_children_iff_exists_bit.mpr ⟨bit, hone, hrank, hzeros⟩)
    exact ⟨⟨hroot, by omega⟩, bit, ⟨hone, hrank⟩, by omega, by omega⟩

/-! ### Ways down -/

/-- A string leads from one node to another if its bytes are the labels of nodes on a way down, each
a child of the one before. -/
inductive Leads (t : Trie) : ℕ → Key → ℕ → Prop
  | here (node : ℕ) : Leads t node [] node
  | down {node child target : ℕ} {label : UInt8} {rest : Key} (hchild : child ∈ t.children node)
      (hlabel : t.label? child = some label) (hrest : Leads t child rest target) :
      Leads t node (label :: rest) target

/-- Two ways down, one behind the other. -/
theorem Leads.append {start middle target : ℕ} {path tail : Key}
    (hfront : t.Leads start path middle) (hback : t.Leads middle tail target) :
    t.Leads start (path ++ tail) target := by
  induction hfront with
  | here node => exact hback
  | down hchild hlabel _ ih => exact .down hchild hlabel (ih hback)

theorem label?_eq_some_label {node : ℕ} (hnode : node < t.numNodes) :
    t.label? node = some (t.label node) := by
  have hsize : node < t.labels.size := hnode
  rw [label?, label, Array.getD_eq_getD_getElem?, Array.getElem?_eq_getElem hsize, Option.getD_some]

/-- What is spelled on the way up leads down again. -/
theorem leads_of_spellUp {node : ℕ} {spelled key : Key} (hkey : t.spellUp node spelled = some key) :
    ∃ path, key = path ++ spelled ∧ t.Leads root path node := by
  fun_induction spellUp t node spelled with
  | case1 spelled =>
    exact ⟨[], (Option.some.inj hkey).symm, .here root⟩
  | case2 node spelled hroot hnone => exact absurd hkey (by simp)
  | case3 node spelled hroot parent hparent hlt ih =>
    obtain ⟨path, rfl, hpath⟩ := ih hkey
    obtain ⟨-, hchild⟩ := parent?_eq_some_iff.mp hparent
    have hlabel := label?_eq_some_label (lt_numNodes_of_mem_children hchild)
    refine ⟨path ++ [t.label node], by simp, hpath.append (.down hchild hlabel (.here node))⟩
  | case4 node spelled hroot parent hparent hge => exact absurd hkey (by simp)

/-- A string that a node spells leads from the root to the node. -/
theorem leads_of_reverseLookup? {node : ℕ} {key : Key} (hkey : t.reverseLookup? node = some key) :
    t.Leads root key node := by
  rw [reverseLookup?, Option.ite_none_right_eq_some] at hkey
  obtain ⟨path, rfl, hpath⟩ := leads_of_spellUp hkey.2
  rwa [List.append_nil]

end Trie

end KanaKanji.Louds
