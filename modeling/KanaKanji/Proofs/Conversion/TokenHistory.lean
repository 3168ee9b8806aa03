import Mathlib
import KanaKanji.Proofs.Conversion.Accepted
import KanaKanji.Proofs.Conversion.PositionSplit

/-!
# History from the end of a text

`reconstructHistory` makes a history segment of the token at the end of a text: the longest run of
digits or of letters there (`LastToken`), where one space may stand behind it. The text is looked
through from its end. What is looked for is the byte at which the token begins, and the text is cut
there (`Guarded.lastToken?`); as this byte begins a character, the cut gives no fault, and the token
is the run of characters that `lastToken?` takes (`Guarded.lastToken?_eq_ok`).

The key of the segment is the token in half-width characters. These are ASCII characters of the same
script (`TokenScript.hasAscii_toHalfWidthChar`).
-/

set_option autoImplicit false

namespace KanaKanji

/-! ### Scripts -/

namespace Segments

namespace TokenScript

/-- Whether a character, ASCII or full-width, is of the script. -/
def has : TokenScript → Char → Bool
  | .number => Script.isNumber
  | .alphabet => Script.isAlphabet

/-- Whether a character is an ASCII character of the script. -/
def hasAscii : TokenScript → Char → Bool
  | .number => Char.isDigit
  | .alphabet => Char.isAlpha

/-- A letter is no digit. -/
theorem isNumber_eq_false {c : Char} (hletter : Script.isAlphabet c = true) :
    Script.isNumber c = false := by
  simp only [Script.isAlphabet, Script.isAsciiLetter, Script.isNumber, Script.within,
    Bool.or_eq_true, Bool.and_eq_true, decide_eq_true_eq, Bool.or_eq_false_iff,
    Bool.and_eq_false_iff, decide_eq_false_iff_not] at hletter ⊢
  omega

theorem scriptOf?_eq_some_iff {c : Char} {script : TokenScript} :
    scriptOf? c = some script ↔ script.has c = true := by
  rw [scriptOf?]
  by_cases hdigit : Script.isNumber c = true
  · have hletter : Script.isAlphabet c = false := by
      by_contra hletter
      rw [isNumber_eq_false (by simpa using hletter)] at hdigit
      exact Bool.false_ne_true hdigit
    cases script <;> simp [has, hdigit, hletter]
  · by_cases hletter : Script.isAlphabet c = true
    · cases script <;> simp [has, hdigit, hletter]
    · cases script <;> simp [has, hdigit, hletter]

theorem toNat_toHalfWidthChar (c : Char) : (Script.toHalfWidthChar c).toNat =
    if Script.within 0xFF01 0xFF5E c then c.toNat - 0xFEE0 else c.toNat := by
  rw [Script.toHalfWidthChar]
  split
  · next hwide =>
    have hvalid : (c.toNat - 0xFEE0).isValidChar := by
      simp only [Script.within, Bool.and_eq_true, decide_eq_true_eq] at hwide
      exact .inl (by omega)
    rw [Script.shiftDown, Char.toNat_ofNat, if_pos hvalid]
  · rfl

theorem isDigit_eq_within (c : Char) : c.isDigit = Script.within 0x30 0x39 c := by
  rw [Bool.eq_iff_iff, Char.isDigit_iff_toNat, Script.within, Bool.and_eq_true, decide_eq_true_eq,
    decide_eq_true_eq]
  exact Iff.rfl

theorem isAlpha_eq_isAsciiLetter (c : Char) : c.isAlpha = Script.isAsciiLetter c := by
  rw [Bool.eq_iff_iff]
  simp only [Char.isAlpha, Char.isUpper, Char.isLower, Bool.or_eq_true, Bool.and_eq_true,
    decide_eq_true_eq, ge_iff_le, UInt32.le_iff_toNat_le, Script.isAsciiLetter, Script.within]
  exact Iff.rfl

theorem beq_scriptOf? (script : TokenScript) :
    (fun c ↦ scriptOf? c == some script) = script.has := by
  funext c
  rw [Bool.eq_iff_iff, beq_iff_eq, scriptOf?_eq_some_iff]

/-- The half-width form of a character of the script is an ASCII character of it. -/
theorem hasAscii_toHalfWidthChar {script : TokenScript} {c : Char} (hc : script.has c = true) :
    script.hasAscii (Script.toHalfWidthChar c) = true := by
  have hplace := toNat_toHalfWidthChar c
  cases script with
  | number =>
    rw [hasAscii, isDigit_eq_within]
    simp only [has, Script.isNumber, Script.within, Bool.or_eq_true, Bool.and_eq_true,
      decide_eq_true_eq] at hc hplace ⊢
    split at hplace <;> omega
  | alphabet =>
    rw [hasAscii, isAlpha_eq_isAsciiLetter]
    simp only [has, Script.isAlphabet, Script.isAsciiLetter, Script.within, Bool.or_eq_true,
      Bool.and_eq_true, decide_eq_true_eq] at hc hplace ⊢
    split at hplace <;> omega

end TokenScript

/-! ### The last token -/

variable {script : TokenScript} {cs token : List Char}

/-- The characters in front of one space at the end, or all of them if there is none. -/
def beforeSpace (cs : List Char) : List Char :=
  if cs.getLast? = some ' ' then cs.dropLast else cs

/-- The characters at the end are of the script, and no more characters at the end are. -/
structure LastToken (script : TokenScript) (cs token : List Char) : Prop where
  isSuffix : token <:+ cs
  ne_nil : token ≠ []
  forall_has : ∀ c ∈ token, script.has c = true
  longest : ∀ other, other <:+ cs → (∀ c ∈ other, script.has c = true) → other <:+ token

/-- If the last character is of the script, the last run of characters of it is the token. -/
theorem lastToken_rtakeWhile {last : Char} (hlast : last ∈ cs.getLast?)
    (hscript : script.has last = true) : LastToken script cs (cs.rtakeWhile script.has) := by
  refine ⟨List.rtakeWhile_suffix _ _, fun hnil ↦ ?_, fun c ↦ List.mem_rtakeWhile_imp,
    fun other ↦ Lists.suffix_rtakeWhile⟩
  obtain ⟨hne, rfl⟩ := List.mem_getLast?_eq_getLast hlast
  exact List.rtakeWhile_eq_nil_iff.mp hnil hne hscript

/-- There is only one such token. -/
theorem LastToken.unique {other : List Char} (htoken : LastToken script cs token)
    (hother : LastToken script cs other) : token = other :=
  (hother.longest token htoken.isSuffix htoken.forall_has).eq_of_length_le
    (htoken.longest other hother.isSuffix hother.forall_has).length_le

theorem beforeSpace_append_space (front : List Char) : beforeSpace (front ++ [' ']) = front := by
  rw [beforeSpace, List.getLast?_concat, if_pos rfl, List.dropLast_concat]

theorem beforeSpace_eq_self (hlast : cs.getLast? ≠ some ' ') : beforeSpace cs = cs :=
  if_neg hlast

/-- The token is the last run of characters of the script that the last character has. -/
theorem lastToken?_eq (text : String) : lastToken? text =
    (beforeSpace text.toList).getLast?.bind fun last ↦ (scriptOf? last).map fun script ↦
      String.ofList ((beforeSpace text.toList).rtakeWhile script.has) := by
  rw [lastToken?]
  simp only [TokenScript.beq_scriptOf?, List.rtakeWhile, ← List.head?_reverse]
  rcases List.eq_nil_or_concat' text.toList with htext | ⟨front, c, htext⟩
  · rw [htext]
    rfl
  rw [htext, List.reverse_concat]
  by_cases hspace : c = ' '
  · rw [hspace, beforeSpace_append_space]
    cases front.reverse <;> rfl
  · rw [beforeSpace_eq_self (by simpa using hspace), List.reverse_concat]
    simp [hspace]

/-! ### Looking for a byte -/

namespace Guarded

open Converter.Guarded (cutText)

/-- The characters of a text with the bytes at which they begin, the first one at a given byte. -/
def charStarts : (start : ℕ) → List Char → List (ℕ × Char)
  | _, [] => []
  | start, c :: rest => (start, c) :: charStarts (start + c.utf8Size) rest

/-- The token at the end of a text, from the byte on at which its first character begins. This byte
is looked for from the end. -/
def lastToken? (text : String) : Except Fault (Option String) :=
  let cs := beforeSpace text.toList
  match cs.getLast?.bind scriptOf? with
  | none => .ok none
  | some script =>
    let run := (charStarts 0 cs).reverse.takeWhile fun place ↦ scriptOf? place.2 == some script
    let start := (run.getLast?.map Prod.fst).getD (Text.byteCount cs)
    (cutText cs start).map fun (_, token) ↦ some (String.ofList token)

theorem charStarts_append (start : ℕ) (front back : List Char) :
    charStarts start (front ++ back) =
      charStarts start front ++ charStarts (start + Text.byteCount front) back := by
  induction front generalizing start with
  | nil => rfl
  | cons c front ih =>
    rw [List.cons_append, charStarts, charStarts, ih, List.cons_append, Text.byteCount,
      Nat.add_assoc]

theorem map_snd_charStarts (start : ℕ) (cs : List Char) :
    (charStarts start cs).map Prod.snd = cs := by
  induction cs generalizing start with
  | nil => rfl
  | cons c cs ih => rw [charStarts, List.map_cons, ih]

/-- The characters that are met from the end, as long as they belong to a run, are those of the
run. -/
theorem takeWhile_charStarts {p : Char → Bool} {front token : List Char}
    (hfront : ∀ c ∈ front.getLast?, p c = false) (htoken : ∀ c ∈ token, p c = true) :
    ((charStarts 0 (front ++ token)).reverse.takeWhile fun place ↦ p place.2) =
      (charStarts (Text.byteCount front) token).reverse := by
  have hrun : ∀ place ∈ (charStarts (Text.byteCount front) token).reverse, p place.2 = true := by
    intro place hplace
    apply htoken
    rw [← map_snd_charStarts (Text.byteCount front) token]
    exact List.mem_map_of_mem (List.mem_reverse.mp hplace)
  rw [charStarts_append, Nat.zero_add, List.reverse_append, List.takeWhile_append_of_pos hrun]
  rcases List.eq_nil_or_concat' front with rfl | ⟨init, c, rfl⟩
  · rw [charStarts, List.reverse_nil, List.takeWhile_nil, List.append_nil]
  · have hc : p c = false := hfront c List.getLast?_concat
    rw [charStarts_append 0 init, charStarts, charStarts, List.reverse_concat,
      List.takeWhile_cons_of_neg (by simp [hc]), List.append_nil]

/-- The byte that is looked for begins the token. -/
theorem lastToken?_eq_ok (text : String) :
    Guarded.lastToken? text = .ok (Segments.lastToken? text) := by
  rw [Guarded.lastToken?, lastToken?_eq]
  dsimp only
  generalize beforeSpace text.toList = cs
  rcases hlast : cs.getLast? with _ | last
  · rfl
  rw [Option.bind_some, Option.bind_some]
  rcases hscript : scriptOf? last with _ | script
  · rfl
  rw [TokenScript.scriptOf?_eq_some_iff] at hscript
  rw [Option.map_some]
  have htoken := lastToken_rtakeWhile hlast hscript
  obtain ⟨front, happend, hfront⟩ := Lists.exists_eq_append_rtakeWhile script.has cs
  generalize cs.rtakeWhile script.has = token at happend htoken ⊢
  obtain ⟨first, rest, rfl⟩ := List.exists_cons_of_ne_nil htoken.ne_nil
  have hhas : (fun place : ℕ × Char ↦ scriptOf? place.2 == some script) =
      fun place ↦ script.has place.2 :=
    funext fun place ↦ congrFun (TokenScript.beq_scriptOf? script) place.2
  dsimp only
  rw [hhas, happend, takeWhile_charStarts hfront htoken.forall_has, List.getLast?_reverse, cutText,
    charStarts, List.head?_cons, Option.map_some, Option.getD_some,
    Text.splitAtByte?_eq_some_iff.mpr ⟨rfl, rfl⟩]
  rfl

end Guarded

/-! ### The history segment -/

theorem lastToken?_eq_none_iff {text : String} : lastToken? text = none ↔
    beforeSpace text.toList = [] ∨ ∃ last ∈ (beforeSpace text.toList).getLast?,
      Script.isNumber last = false ∧ Script.isAlphabet last = false := by
  rw [lastToken?_eq]
  rcases hlast : (beforeSpace text.toList).getLast? with _ | last
  · simpa using hlast
  · have hne : beforeSpace text.toList ≠ [] := by
      rintro hnil
      rw [hnil] at hlast
      exact absurd hlast (by simp)
    have hnone : scriptOf? last = none ↔
        Script.isNumber last = false ∧ Script.isAlphabet last = false := by
      rw [scriptOf?]
      cases Script.isNumber last <;> cases Script.isAlphabet last <;> simp
    simp [hne, hnone]

theorem lastToken?_eq_some {text : String} {last : Char}
    (hlast : last ∈ (beforeSpace text.toList).getLast?) (hscript : script.has last = true) :
    lastToken? text = some (String.ofList ((beforeSpace text.toList).rtakeWhile script.has)) := by
  rw [lastToken?_eq, Option.mem_def.mp hlast, Option.bind_some,
    TokenScript.scriptOf?_eq_some_iff.mpr hscript, Option.map_some]

theorem tokenSegment_eq (token : String) : tokenSegment token =
    { key := Script.toHalfWidth token
      type := .history
      candidates :=
        [{ Candidate.new (Script.toHalfWidth token) token with attributes := .noLearning }]
      metaCandidates := [] } := by
  have hflags : CandidateAttributes.union {} .noLearning = .noLearning := by decide
  conv_rhs => rw [← hflags]
  rfl

/-- A token at the end of a text is found just if the last character, where one space may stand
behind it, is a digit or a letter. The token is looked for by the byte at which it begins. It is the
longest run of characters of that script, and then the only segment of the state is one of history
with the token as the value of its one candidate, which is not learnt from. The key of both is the
token in half-width characters, one for each of its characters, all of them ASCII characters of the
script. There is nothing to take back. If no token is found, the state is the same. -/
theorem reconstructHistory_last_token (s : Segments) (text : String) :
    Guarded.lastToken? text = .ok (lastToken? text) ∧
    (s.reconstructHistory text = s.refused .noHistoryToken ↔
      beforeSpace text.toList = [] ∨ ∃ last ∈ (beforeSpace text.toList).getLast?,
        Script.isNumber last = false ∧ Script.isAlphabet last = false) ∧
    ∀ last ∈ (beforeSpace text.toList).getLast?, ∀ script : TokenScript, script.has last = true →
      ∃ token, LastToken script (beforeSpace text.toList) token.toList ∧
        (Script.toHalfWidth token).length = token.length ∧
        (∀ c ∈ (Script.toHalfWidth token).toList, script.hasAscii c = true) ∧
        s.reconstructHistory text = done { s with
          segments := [{
            key := Script.toHalfWidth token
            type := .history
            candidates :=
              [{ Candidate.new (Script.toHalfWidth token) token with attributes := .noLearning }]
            metaCandidates := [] }]
          resized := false
          revertEntries := [] } := by
  refine ⟨Guarded.lastToken?_eq_ok text, ?_, fun last hlast script hscript ↦ ?_⟩
  · rw [← lastToken?_eq_none_iff, reconstructHistory]
    rcases lastToken? text with _ | token
    · simp
    · simp [done, refused]
  · have htoken := lastToken_rtakeWhile hlast hscript
    refine ⟨String.ofList ((beforeSpace text.toList).rtakeWhile script.has), ?_, ?_, ?_, ?_⟩
    · rwa [String.toList_ofList]
    · simp [Script.toHalfWidth, Script.mapChars]
    · rw [Script.toHalfWidth, Script.toList_mapChars, String.toList_ofList]
      intro c hc
      obtain ⟨d, hd, rfl⟩ := List.mem_map.mp hc
      exact TokenScript.hasAscii_toHalfWidthChar (htoken.forall_has d hd)
    · rw [reconstructHistory, lastToken?_eq_some hlast hscript]
      dsimp only
      rw [tokenSegment_eq]
      rfl

/-- A state that has a segment and something to take back. -/
def midway : Segments :=
  (empty.pushBack (.new "かんじ" .free)).pushRevertEntry { id := 1, timestamp := 2, key := "かんじ" }

/-- Digits of both widths in front of a space are the token, and a letter in front of them is
not. -/
theorem reconstructHistory_last_token_mixedWidth :
    ∃ t segment, midway.reconstructHistory "Ａ１２3 " = done t ∧ t.segments = [segment] ∧
      t.revertEntries = [] ∧ segment.type = .history ∧ segment.key = "123" ∧
      segment.candidates.map Candidate.value = ["１２3"] := by
  have hlast : '3' ∈ (beforeSpace "Ａ１２3 ".toList).getLast? := by decide
  have hscript : TokenScript.number.has '3' = true := by decide
  obtain ⟨token, htoken, -, -, hdone⟩ :=
    (reconstructHistory_last_token midway "Ａ１２3 ").2.2 '3' hlast .number hscript
  have hchars : token.toList = "１２3".toList :=
    (htoken.unique (lastToken_rtakeWhile hlast hscript)).trans (by decide)
  obtain rfl := String.toList_inj.mp hchars
  exact ⟨_, _, hdone, rfl, rfl, rfl, by decide, rfl⟩

end Segments

end KanaKanji
