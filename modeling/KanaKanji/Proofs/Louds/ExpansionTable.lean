import Mathlib
import KanaKanji.Louds.Expansion

/-!
# Expanded bytes as a table of bits

A set of labels fits into four words of 64 bits (`LabelSet`), and a table of such sets, one for each
byte, says what the byte stands for (`ExpansionTable`). At first each byte stands for itself; labels
are added to the set of a byte, and nothing takes them away.

So a table means each byte itself and the union of all that was added for it, and so does the list
of pairs that the searches of a trie read (`ExpansionTable.isHit_ofAdds_iff`,
`Expansion.hits_ofAdds_iff`).
-/

set_option autoImplicit false

namespace KanaKanji.Louds

/-! ### Sets of labels -/

/-- A set of labels, 64 of them to a word. -/
structure LabelSet where
  words : Vector (BitVec 64) 4

namespace LabelSet

/-- The set without labels. -/
def empty : LabelSet := ⟨Vector.replicate 4 0⟩

/-- The word of a label. -/
def wordOf (label : UInt8) : Fin 4 := ⟨label.toNat / 64, by have := label.toNat_lt; omega⟩

/-- The bit of a label in its word. -/
def bitOf (label : UInt8) : BitVec 64 := 1#64 <<< (label.toNat % 64)

/-- A set with one label more. -/
def insert (set : LabelSet) (label : UInt8) : LabelSet :=
  ⟨set.words.set (wordOf label) (set.words[wordOf label] ||| bitOf label)⟩

/-- Whether a label is in a set. -/
def contains (set : LabelSet) (label : UInt8) : Bool :=
  set.words[wordOf label] &&& bitOf label != 0

theorem getLsbD_bitOf (label other : UInt8) :
    (bitOf label).getLsbD (other.toNat % 64) = decide (label.toNat % 64 = other.toNat % 64) := by
  rw [bitOf, ← BitVec.twoPow_eq, BitVec.getLsbD_twoPow, decide_eq_true (Nat.mod_lt _ (by decide)),
    Bool.true_and]

theorem contains_eq_getLsbD (set : LabelSet) (label : UInt8) :
    set.contains label = set.words[wordOf label].getLsbD (label.toNat % 64) := by
  have hbit : bitOf label ≠ 0 := by
    intro hzero
    have hown := getLsbD_bitOf label label
    simp [hzero] at hown
  rw [contains, bitOf, ← BitVec.twoPow_eq, BitVec.and_twoPow, BitVec.twoPow_eq, ← bitOf]
  cases set.words[wordOf label].getLsbD (label.toNat % 64) with
  | false => rfl
  | true => simpa using hbit

theorem contains_empty (label : UInt8) : empty.contains label = false := by
  rw [contains_eq_getLsbD, empty]
  simp

theorem contains_insert (set : LabelSet) (label other : UInt8) :
    (set.insert label).contains other = (set.contains other || label == other) := by
  rw [contains_eq_getLsbD, contains_eq_getLsbD, insert]
  by_cases hword : wordOf label = wordOf other
  · have hsame : label.toNat % 64 = other.toNat % 64 ↔ label = other := by
      have hdiv : label.toNat / 64 = other.toNat / 64 := congrArg Fin.val hword
      rw [← UInt8.toNat_inj]
      omega
    simp only [hword, Fin.getElem_fin, Vector.getElem_set_self, BitVec.getLsbD_or, getLsbD_bitOf,
      hsame]
    rfl
  · have hne : label ≠ other := fun heq ↦ hword (heq ▸ rfl)
    have hplace : (wordOf label : ℕ) ≠ wordOf other := fun heq ↦ hword (Fin.ext heq)
    simp [hplace, hne]

theorem contains_foldl_insert (labels : List UInt8) (set : LabelSet) (other : UInt8) :
    (labels.foldl insert set).contains other = true ↔
      set.contains other = true ∨ other ∈ labels := by
  induction labels generalizing set with
  | nil => simp
  | cons label rest ih =>
    rw [List.foldl_cons, ih, contains_insert, Bool.or_eq_true, beq_iff_eq, List.mem_cons, or_assoc,
      eq_comm (a := label)]

end LabelSet

/-! ### Tables -/

/-- The set of labels that each byte stands for. -/
structure ExpansionTable where
  rows : Vector LabelSet 256

namespace ExpansionTable

/-- The table in which each byte stands for itself only. -/
def identity : ExpansionTable :=
  ⟨Vector.ofFn fun byte ↦ LabelSet.empty.insert (UInt8.ofFin byte)⟩

/-- The table in which a byte stands for further labels too. -/
def add (table : ExpansionTable) (byte : UInt8) (labels : List UInt8) : ExpansionTable :=
  ⟨table.rows.set byte.toFin (labels.foldl LabelSet.insert table.rows[byte.toFin])⟩

/-- Whether a byte of a query stands for a label. -/
def isHit (table : ExpansionTable) (byte label : UInt8) : Bool :=
  table.rows[byte.toFin].contains label

theorem isHit_identity (byte label : UInt8) : identity.isHit byte label = (byte == label) := by
  rw [isHit, identity]
  simp [LabelSet.contains_insert, LabelSet.contains_empty]

theorem isHit_add_iff (table : ExpansionTable) (added : UInt8) (labels : List UInt8)
    (byte label : UInt8) :
    (table.add added labels).isHit byte label = true ↔
      table.isHit byte label = true ∨ added = byte ∧ label ∈ labels := by
  rw [isHit, isHit, add]
  by_cases hbyte : added = byte
  · subst hbyte
    simp [LabelSet.contains_foldl_insert]
  · have hrow : added.toNat ≠ byte.toNat := fun heq ↦ hbyte (UInt8.toNat_inj.mp heq)
    simp [hbyte, hrow]

end ExpansionTable

theorem Expansion.hits_add_iff (x : Expansion) (added : UInt8) (labels : List UInt8)
    (byte label : UInt8) :
    (x.add added labels).hits byte label = true ↔
      x.hits byte label = true ∨ added = byte ∧ label ∈ labels := by
  simp [Expansion.hits, Expansion.add, or_assoc, and_comm]

/-! ### What was added -/

/-- A byte stands for itself and for the labels that were added for it. -/
def StandsFor (adds : List (UInt8 × List UInt8)) (byte label : UInt8) : Prop :=
  byte = label ∨ ∃ labels, (byte, labels) ∈ adds ∧ label ∈ labels

/-- However a table is stored, if an addition to it means one more set of labels for a byte, then
many additions mean their union. -/
theorem foldl_add_iff {τ : Type} {add : τ → UInt8 → List UInt8 → τ}
    {hits : τ → UInt8 → UInt8 → Bool}
    (hadd : ∀ table added labels byte label, hits (add table added labels) byte label = true ↔
      hits table byte label = true ∨ added = byte ∧ label ∈ labels)
    (adds : List (UInt8 × List UInt8)) (table : τ) (byte label : UInt8) :
    hits (adds.foldl (fun table (added, labels) ↦ add table added labels) table) byte label = true ↔
      hits table byte label = true ∨ ∃ labels, (byte, labels) ∈ adds ∧ label ∈ labels := by
  induction adds generalizing table with
  | nil => simp
  | cons first rest ih =>
    obtain ⟨added, labels⟩ := first
    rw [List.foldl_cons, ih, hadd, or_assoc]
    refine or_congr_right ?_
    simp only [List.mem_cons, Prod.mk.injEq, or_and_right, exists_or, and_assoc,
      exists_eq_left, exists_and_left, eq_comm (a := byte)]

/-- The table after some additions. -/
def ExpansionTable.ofAdds (adds : List (UInt8 × List UInt8)) : ExpansionTable :=
  adds.foldl (fun table (byte, labels) ↦ table.add byte labels) identity

/-- The list of pairs after some additions. -/
def Expansion.ofAdds (adds : List (UInt8 × List UInt8)) : Expansion :=
  adds.foldl (fun x (byte, labels) ↦ x.add byte labels) empty

variable (adds : List (UInt8 × List UInt8)) (byte label : UInt8)

theorem ExpansionTable.isHit_ofAdds_iff :
    (ofAdds adds).isHit byte label = true ↔ StandsFor adds byte label := by
  rw [ofAdds, foldl_add_iff isHit_add_iff, isHit_identity, beq_iff_eq, StandsFor]

theorem Expansion.hits_ofAdds_iff :
    (ofAdds adds).hits byte label = true ↔ StandsFor adds byte label := by
  rw [ofAdds, foldl_add_iff hits_add_iff, StandsFor]
  simp [hits, empty]

/-- The table of bits and the list of pairs mean the same. -/
theorem ExpansionTable.isHit_ofAdds :
    (ofAdds adds).isHit byte label = (Expansion.ofAdds adds).hits byte label := by
  rw [Bool.eq_iff_iff, isHit_ofAdds_iff, Expansion.hits_ofAdds_iff]

end KanaKanji.Louds
