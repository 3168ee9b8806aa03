import KanaKanji.Settings.Basic
import KanaKanji.Toml.Document

/-!
# Settings in a TOML document

Settings are read from a document with a table for each section. Every setting has to be given, and
keys that name no setting are passed over. A section may also be an array, which gives its settings
in their order.
-/

set_option autoImplicit false

namespace KanaKanji

open Toml

/-! ### Values -/

/-- The values with the given names in a table, or as many values from the front of an array. -/
def fields? (names : List String) : Value → Option (List Value)
  | .table _ entries => names.mapM fun name ↦ entries.lookup name
  | .array items => if names.length ≤ items.length then some (items.take names.length) else none
  | _ => none

/-- A natural number below a bound. -/
def naturalBelow? (bound : Nat) : Value → Option Nat
  | .integer n => if 0 ≤ n && n < bound then some n.toNat else none
  | _ => none

/-- A number of things. -/
def count? (v : Value) : Option Nat := naturalBelow? UInt64.size v

/-- A truth value. -/
def boolean? : Value → Option Bool
  | .boolean b => some b
  | _ => none

/-! ### Sections -/

/-- The settings of a section on conversion. -/
def ConversionSettings.ofValue? (v : Value) : Option ConversionSettings := do
  let [useModifierInsensitive] ← fields? ["use_kana_modifier_insensitive_conversion"] v | none
  return ⟨← boolean? useModifierInsensitive⟩

/-- The settings of a section on segments. -/
def SegmentsSettings.ofValue? (v : Value) : Option SegmentsSettings := do
  let [history, conversion, prediction] ←
    fields? ["max_history_segments", "max_conversion_candidates", "max_prediction_candidates"] v
    | none
  return ⟨← count? history, ← count? conversion, ← count? prediction⟩

/-- The settings of a section on data sets. -/
def DataSetSettings.ofValue? (v : Value) : Option DataSetSettings := do
  let [alignment] ← fields? ["default_alignment"] v | none
  return ⟨← naturalBelow? UInt32.size alignment⟩

/-! ### Documents -/

namespace Settings

/-- The settings in a top-level table, within their limits or not. -/
def ofEntries? (entries : Entries) : Option Settings := do
  let conversion ← ConversionSettings.ofValue? (← entries.lookup "conversion")
  let segments ← SegmentsSettings.ofValue? (← entries.lookup "segments")
  let dataSet ← DataSetSettings.ofValue? (← entries.lookup "data_set")
  return ⟨conversion, segments, dataSet⟩

/-- The settings in a document, if they keep their limits. -/
def ofToml (text : String) : Except SettingsError Settings := do
  match (parse? text).bind ofEntries? with
  | none => throw .malformed
  | some settings =>
    settings.validate
    return settings

/-- The document with the default settings. -/
def defaultToml : String :=
  "# Default engine settings.\n" ++
  "#\n" ++
  "# Copy this file and pass it to `settings::init_custom` (or\n" ++
  "# `dictool settings-validate`) to override individual values.\n" ++
  "\n" ++
  "[conversion]\n" ++
  "# Match dictionary keys regardless of voiced / semi-voiced / small kana marks.\n" ++
  "use_kana_modifier_insensitive_conversion = true\n" ++
  "\n" ++
  "[segments]\n" ++
  "max_history_segments = 4\n" ++
  "max_conversion_candidates = 200\n" ++
  "max_prediction_candidates = 10\n" ++
  "\n" ++
  "[data_set]\n" ++
  "# Region alignment in bits (8, 16, 32 or 64).\n" ++
  "default_alignment = 32\n"

end Settings

end KanaKanji
