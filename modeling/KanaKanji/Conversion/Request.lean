import KanaKanji.Settings.Basic
import KanaKanji.Text.Script

/-!
# Conversion requests

A request says how a key is to be converted: where the key comes from, what the client asks for and
what the settings allow.
-/

set_option autoImplicit false

namespace KanaKanji

/-- What the user has typed, as a key for conversion and as a key for prediction. -/
structure Composer where
  conversionQuery : String
  predictionQuery : String
  deriving DecidableEq, Repr, Inhabited

/-- The composer of a text. Latin letters at its end are kana that are not finished, so prediction
leaves them out. -/
def Composer.ofPreedit (text : String) : Composer where
  conversionQuery := text
  predictionQuery := String.ofList (text.toList.reverse.dropWhile Script.isAsciiLetter).reverse

/-- What the client asks for. -/
structure ClientRequest where
  modifierInsensitiveConversion : Bool := false
  zeroQuerySuggestion : Bool := false
  mixedConversion : Bool := false
  deriving DecidableEq, Repr, Inhabited

/-- Which query of the composer is the key. -/
inductive KeySelection
  | conversionKey
  | predictionKey
  deriving DecidableEq, Repr, Inhabited

/-- The name of a selection in messages. -/
def KeySelection.name : KeySelection → String
  | .conversionKey => "ConversionKey"
  | .predictionKey => "PredictionKey"

/-- How a key is to be converted. -/
structure ConversionRequest where
  composer : Option Composer := none
  client : ClientRequest := {}
  config : ConversionSettings := {}
  keySelection : KeySelection := .conversionKey
  skipSlowRewriters : Bool := false
  createPartialCandidates : Bool := false
  useActualConverter : Bool := false
  deriving DecidableEq, Repr, Inhabited

namespace ConversionRequest

/-- Whether readings match up to modifiers: both the client and the settings have to want it. -/
def isModifierInsensitive (r : ConversionRequest) : Bool :=
  r.client.modifierInsensitiveConversion && r.config.useModifierInsensitiveConversion

/-- The key that the composer gives. -/
def composerKey? (r : ConversionRequest) : Option String :=
  r.composer.map fun composer ↦
    match r.keySelection with
    | .conversionKey => composer.conversionQuery
    | .predictionKey => composer.predictionQuery

/-- A field of a record in messages. -/
def describeField (name value : String) : String := name ++ ": " ++ value

/-- A record in messages. -/
def describeRecord (name : String) (fields : List String) : String :=
  name ++ " \x7b " ++ ", ".intercalate fields ++ " \x7d"

/-- The request as it stands in messages. -/
def describe (r : ConversionRequest) : String :=
  let flag := fun (name : String) (b : Bool) ↦ describeField name (if b then "true" else "false")
  describeRecord "ConversionRequest" [
    flag "has_composer" r.composer.isSome,
    describeField "request" (describeRecord "Request" [
      flag "kana_modifier_insensitive_conversion" r.client.modifierInsensitiveConversion,
      flag "zero_query_suggestion" r.client.zeroQuerySuggestion,
      flag "mixed_conversion" r.client.mixedConversion]),
    describeField "config" (describeRecord "ConversionSettings" [
      flag "use_kana_modifier_insensitive_conversion" r.config.useModifierInsensitiveConversion]),
    describeField "composer_key_selection" r.keySelection.name,
    flag "skip_slow_rewriters" r.skipSlowRewriters,
    flag "create_partial_candidates" r.createPartialCandidates,
    flag "use_actual_converter_for_realtime_conversion" r.useActualConverter]

end ConversionRequest

end KanaKanji
