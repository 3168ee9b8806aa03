import KanaKanji.Text.Columns.Character
import KanaKanji.Text.Emoji
import KanaKanji.Text.Joining

/-!
# Characters that join what follows them

The columns of a text are not the sum of those of its characters: letters join the letter after them
into one shape, emoji join into one picture, and a selector changes the character before it. A text
is therefore measured from its end. What matters of the part measured so far is the `Sequel` that it
begins with and the `Selector` before that; `step` adds the character before them and says how many
columns it adds. A character that takes the place of one already counted adds a negative number.

Main statement: `owed_step` (a character only takes back columns that the sequel owes).
-/

set_option autoImplicit false

namespace KanaKanji.Columns

/-! ### What follows a character -/

/-- The zero-width joiner. -/
def joiner : Char := '\u200D'

/-- Letters that the letter before them may join. -/
inductive JoinedLetter
  /-- The lamed of Hebrew, which alef joins. -/
  | lamed
  /-- A letter of Khmer that may stand below another. -/
  | subscript
  /-- The ya of Buginese. -/
  | ya
  /-- The ya of Buginese after a vowel sign that it is to be joined with. -/
  | yaAfterVowel
  /-- A consonant of Tifinagh. -/
  | consonant
  /-- A consonant of Tifinagh after the consonant joiner. -/
  | consonantAfterJoiner
  /-- A tone of Lisu that ends a contour. -/
  | lastTone
  /-- The orkhon i of Old Turkic. -/
  | orkhonI
  deriving DecidableEq, Repr

/-- What follows a character, as far as the columns of the character depend on it. -/
inductive Sequel
  /-- Anything that changes nothing. -/
  | other
  | lineFeed
  /-- A form of alef, which lam joins. -/
  | alef
  /-- A letter, perhaps after a joiner. -/
  | letter (kind : JoinedLetter) (joined : Bool)
  | emoji
  | tone
  | flagLetter
  /-- More than one letter of a flag. -/
  | flagLetters
  /-- An emoji after a joiner. -/
  | joinedEmoji
  /-- A keycap that is to be joined. -/
  | joinedKeycap
  /-- One letter of a flag that is to be joined. -/
  | joinedFlagLetter
  /-- More than one letter of a flag that is to be joined; pairs of them are counted as flags. -/
  | joinedFlagLetters (paired : Bool)
  /-- The end of the tag on a flag that is to be joined: letters with digits before them. -/
  | joinedTag (digits letters : Nat)
  /-- The vowel sign e of Kirat Rai. -/
  | vowelE
  /-- The vowel sign ai of Kirat Rai, which is e twice. -/
  | vowelAi
  deriving DecidableEq, Repr

/-- How a selector wants the character before it to be shown. -/
inductive Selector
  /-- A pictograph as text. -/
  | text
  /-- A character in colour. -/
  | colour
  /-- A quotation mark as wide as a Han character. -/
  | wideQuotation
  deriving DecidableEq, Repr

/-- What follows a character, with the selector right after the character. -/
structure Following where
  sequel : Sequel := .other
  selector : Option Selector := none
  deriving DecidableEq, Repr

/-! ### Selectors -/

/-- The selector that a character is. -/
def Selector.ofChar? (c : Char) : Option Selector :=
  if c = '\uFE01' then some .wideQuotation
  else if c = '\uFE0E' then some .text
  else if c = '\uFE0F' then some .colour
  else none

/-- Whether a selector changes a character. -/
def Selector.changes (c : Char) : Selector → Bool
  | .text => Emoji.becomesText c
  | .colour => Emoji.isSwitchable c
  | .wideQuotation => c ∈ ['\u2018', '\u2019', '\u201C', '\u201D']

/-- Whether a letter is seen through selectors and marks that are not shown. -/
def Sequel.isLetter : Sequel → Bool
  | .alef | .letter .. => true
  | _ => false

/-- What is left of a sequel behind a selector that has changed nothing. -/
def Sequel.behind (s : Sequel) : Sequel := if s.isLetter then s else .other

/-- Whether a sequel is joined by a character in colour. -/
def Sequel.takesColour : Sequel → Bool
  | .joinedEmoji | .joinedKeycap => true
  | _ => false

/-- What follows a character before a selector. -/
def Sequel.select (s : Sequel) (selector : Selector) : Following :=
  ⟨if s.takesColour && selector = .colour then s else s.behind, some selector⟩

/-! ### Joining -/

/-- The columns that a character adds by joining a letter, and what it makes of the letter. -/
def JoinedLetter.join? (c : Char) (joined : Bool) : JoinedLetter → Option (Int × Sequel)
  | .lamed => if joined && c = '\u05D0' then some (0, .other) else none
  | .subscript => if c = '\u17D2' then some (-1, .other) else none
  | .ya => if joined && c = '\u1A17' then some (0, .letter .yaAfterVowel true) else none
  | .yaAfterVowel => if c = '\u1A15' then some (0, .other) else none
  | .consonant =>
    if c = tifinaghJoiner then some (1, .letter .consonantAfterJoiner true)
    else if joined && Joining.tifinaghConsonants.has c then some (0, .other)
    else none
  | .consonantAfterJoiner =>
    if Joining.tifinaghConsonants.has c then some (-1, .other) else none
  | .lastTone => if Joining.firstTones.has c then some (0, .other) else none
  | .orkhonI => if joined && c = Joining.orkhonZ then some (0, .other) else none

/-- The columns that a character adds by joining the tag on a flag. A tag has three to six letters,
or up to four letters and three digits before them. -/
def joinTag? (c : Char) (digits letters : Nat) : Option (Int × Sequel) :=
  if Emoji.isTagLetter c && digits = 0 && letters < 6 then some (0, .joinedTag 0 (letters + 1))
  else if Emoji.isTagDigit c && digits < 3 && letters < 5 then
    some (0, .joinedTag (digits + 1) letters)
  else if c = Emoji.taggedFlag && (digits = 3 || digits = 0 && 3 ≤ letters) then some (0, .emoji)
  else none

/-- The columns that a character adds by joining what follows it, and what they are together; none
if it joins nothing. -/
def Sequel.join? (c : Char) : Sequel → Option (Int × Sequel)
  | .other | .lineFeed => none
  | .alef =>
    if Joining.lams.has c then some (0, .other)
    else if takesNone c && !Joining.separators.has c then some (0, .alef)
    else none
  | .letter kind joined =>
    if c = joiner then some (0, .letter kind true)
    else if Joining.unseenMarks.has c then some (0, .letter kind joined)
    else kind.join? c joined
  | .emoji => if c = joiner then some (0, .joinedEmoji) else none
  | .tone =>
    if Emoji.takesTone c then some (0, .emoji)
    else if c = joiner then some (0, .joinedEmoji)
    else none
  | .flagLetter => if Emoji.isFlagLetter c then some (1, .flagLetters) else none
  | .flagLetters =>
    if Emoji.isFlagLetter c then some (1, .flagLetters)
    else if c = joiner then some (0, .joinedEmoji)
    else none
  | .joinedEmoji =>
    if c = Emoji.keycap then some (0, .joinedKeycap)
    else if Emoji.isFlagLetter c then some (1, .joinedFlagLetter)
    else if Emoji.isTone c then some (0, .tone)
    else if c = Emoji.tagEnd then some (0, .joinedTag 0 0)
    else if Emoji.isPictograph c then some (0, .emoji)
    else none
  | .joinedKeycap => none
  | .joinedFlagLetter => if Emoji.isFlagLetter c then some (-1, .joinedFlagLetters true) else none
  | .joinedFlagLetters paired =>
    if Emoji.isFlagLetter c then some (if paired then 3 else -1, .joinedFlagLetters !paired)
    else if c = joiner then some (0, .joinedEmoji)
    else none
  | .joinedTag digits letters => joinTag? c digits letters
  | .vowelE =>
    if c = Joining.vowelAa || c = Joining.vowelO then some (0, .other)
    else if c = Joining.vowelE then some (0, .vowelAi)
    else if c = Joining.vowelAi then some (1, .vowelE)
    else none
  | .vowelAi => if c = Joining.vowelAa then some (0, .other) else none

/-! ### Characters that join nothing -/

/-- The letters that the letter before them may join, and the columns that they take. -/
def letter? (c : Char) : Option Sequel :=
  if Joining.alefs.has c then some .alef
  else if c = '\u05DC' then some (.letter .lamed false)
  else if Joining.subscripts.has c then some (.letter .subscript false)
  else if c = '\u1A10' then some (.letter .ya false)
  else if Joining.tifinaghConsonants.has c then some (.letter .consonant false)
  else if Joining.lastTones.has c then some (.letter .lastTone false)
  else if c = Joining.orkhonI then some (.letter .orkhonI false)
  else if c = Joining.vowelE then some .vowelE
  else if c = Joining.vowelAi then some .vowelAi
  else if Emoji.isFlagLetter c then some .flagLetter
  else none

/-- The columns that a character takes that joins nothing, and what it is to a character before
it. -/
def alone (c : Char) : Nat × Sequel :=
  match letter? c with
  | some s => (1, s)
  | none =>
    if Emoji.isTone c then (2, .tone)
    else if Emoji.isPictograph c then (2, .emoji)
    else (charWidth c, .other)

/-- The columns that a character of ASCII or a control character adds. A carriage return before a
line feed is one line end with it. -/
def basic (c : Char) (s : Sequel) : Int × Following :=
  if c = '\n' then (1, ⟨.lineFeed, none⟩)
  else if c = '\r' && s = .lineFeed then (0, {})
  else (1, {})

/-! ### One character more -/

/-- Whether a character is one of ASCII, a control character or the no-break space. -/
def isBasic (c : Char) : Bool := c.toNat ≤ 0xA0

/-- The columns that a character adds before what follows it, selectors apart. -/
def join (c : Char) (s : Sequel) : Int × Following :=
  if isBasic c then basic c s
  else
    match Selector.ofChar? c with
    | some selector => (0, s.select selector)
    | none =>
      match s.join? c with
      | some (added, s) => (added, ⟨s, none⟩)
      | none => ((alone c).1, ⟨(alone c).2, none⟩)

/-- The columns of a character that a selector has changed. -/
def selected (s : Sequel) : Selector → Int × Following
  | .text => (1, {})
  | .colour => (if s.takesColour then 0 else 2, ⟨.emoji, none⟩)
  | .wideQuotation => (2, {})

/-- The columns that a character adds to those of what follows it, and what they are to a character
before both. -/
def step (c : Char) (f : Following) : Int × Following :=
  match f.selector with
  | none => join c f.sequel
  | some selector =>
    if selector.changes c then selected f.sequel selector else join c f.sequel.behind

/-! ### Columns that are taken back -/

/-- The columns of a sequel that a character before it may take back. -/
def Sequel.owed : Sequel → Int
  | .letter .subscript _ | .letter .consonantAfterJoiner _ => 1
  | .joinedFlagLetter | .joinedFlagLetters false => 1
  | _ => 0

theorem Sequel.owed_nonneg (s : Sequel) : 0 ≤ s.owed := by
  unfold owed
  split <;> decide

theorem Sequel.owed_behind_le (s : Sequel) : s.behind.owed ≤ s.owed := by
  unfold behind
  split
  · exact Int.le_refl _
  · exact s.owed_nonneg

theorem JoinedLetter.owed_join? {kind : JoinedLetter} {c : Char} {joined : Bool} {added : Int}
    {s : Sequel} (h : kind.join? c joined = some (added, s)) :
    s.owed ≤ (Sequel.letter kind joined).owed + added := by
  cases kind <;> simp only [join?] at h <;> split at h <;> grind [Sequel.owed]

theorem owed_joinTag? {c : Char} {digits letters : Nat} {added : Int} {s : Sequel}
    (h : joinTag? c digits letters = some (added, s)) : s.owed ≤ added := by
  unfold joinTag? at h
  grind [Sequel.owed]

theorem Sequel.owed_join? {s next : Sequel} {c : Char} {added : Int}
    (h : s.join? c = some (added, next)) : next.owed ≤ s.owed + added := by
  cases s with
  | letter kind joined =>
    simp only [join?] at h
    split at h
    · cases kind <;> grind [owed]
    · split at h
      · cases kind <;> grind [owed]
      · exact JoinedLetter.owed_join? h
  | joinedTag digits letters =>
    have := owed_joinTag? h
    simpa [owed] using this
  | joinedFlagLetters paired =>
    cases paired <;> grind [join?, owed, Bool.not_false, Bool.not_true]
  | _ => grind [join?, owed]

theorem owed_letter? {c : Char} {s : Sequel} (h : letter? c = some s) : s.owed ≤ 1 := by
  unfold letter? at h
  repeat' split at h
  all_goals cases h <;> decide

theorem owed_alone (c : Char) : (alone c).2.owed ≤ ((alone c).1 : Int) := by
  unfold alone
  split
  · rename_i s h
    exact owed_letter? h
  · grind [Sequel.owed]

theorem owed_join (c : Char) (s : Sequel) : (join c s).2.sequel.owed ≤ s.owed + (join c s).1 := by
  have hs := s.owed_nonneg
  unfold join
  split
  · grind [basic, Sequel.owed]
  · split
    · have h := s.owed_behind_le
      grind [Sequel.select]
    · split
      · rename_i h
        exact Sequel.owed_join? h
      · exact Int.le_trans (owed_alone c) (Int.le_add_of_nonneg_left hs)

theorem owed_selected (s : Sequel) (selector : Selector) :
    (selected s selector).2.sequel.owed ≤ s.owed + (selected s selector).1 := by
  have hs := s.owed_nonneg
  cases selector <;> grind [selected, Sequel.owed]

/-- A character only takes back columns that the sequel owes. -/
theorem owed_step (c : Char) (f : Following) :
    (step c f).2.sequel.owed ≤ f.sequel.owed + (step c f).1 := by
  unfold step
  split
  · exact owed_join c f.sequel
  · split
    · exact owed_selected _ _
    · exact Int.le_trans (owed_join c _) (Int.add_le_add_right f.sequel.owed_behind_le _)

end KanaKanji.Columns
