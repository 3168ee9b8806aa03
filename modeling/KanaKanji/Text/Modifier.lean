/-!
# Kana up to modifiers

Kana that differ only by a voicing mark or by their size stand in one group. A search that ignores
modifiers takes any member of a group for any other.
-/

set_option autoImplicit false

namespace KanaKanji.Modifier

/-- The groups of kana that differ only by voicing marks or size, the plain form first. -/
def groups : List (List Char) :=
  [['あ', 'ぁ'], ['い', 'ぃ'], ['う', 'ぅ', 'ゔ'], ['え', 'ぇ'], ['お', 'ぉ'],
   ['か', 'が'], ['き', 'ぎ'], ['く', 'ぐ'], ['け', 'げ'], ['こ', 'ご'],
   ['さ', 'ざ'], ['し', 'じ'], ['す', 'ず'], ['せ', 'ぜ'], ['そ', 'ぞ'],
   ['た', 'だ'], ['ち', 'ぢ'], ['つ', 'っ', 'づ'], ['て', 'で'], ['と', 'ど'],
   ['は', 'ば', 'ぱ'], ['ひ', 'び', 'ぴ'], ['ふ', 'ぶ', 'ぷ'], ['へ', 'べ', 'ぺ'],
   ['ほ', 'ぼ', 'ぽ'], ['や', 'ゃ'], ['ゆ', 'ゅ'], ['よ', 'ょ'], ['わ', 'ゎ']]

/-- The group of a character, the character itself included; a character without variants has
none. -/
def group? (c : Char) : Option (List Char) := groups.find? (·.contains c)

/-- The characters that a character stands for when modifiers are ignored: its group, or itself
alone. -/
def variants (c : Char) : List Char := (group? c).getD [c]

/-- Two characters that are equal when modifiers are ignored. -/
def Agree (c d : Char) : Prop := c = d ∨ ∃ g ∈ groups, c ∈ g ∧ d ∈ g

instance (c d : Char) : Decidable (Agree c d) :=
  inferInstanceAs (Decidable (c = d ∨ ∃ g ∈ groups, c ∈ g ∧ d ∈ g))

end KanaKanji.Modifier
