/-!
# Settings

The settings of the engine in their three sections, the values that hold where no others are given,
and the limits that settings have to keep.

Main statement: `validate_default` (what holds where no settings are given keeps the limits).
-/

set_option autoImplicit false

namespace KanaKanji

/-- Why settings are refused. -/
inductive SettingsError
  | malformed
  | invalidValue (field reason : String)
  deriving DecidableEq, Repr

/-- The message for refused settings. -/
def SettingsError.message : SettingsError → String
  | .malformed => "TOML parse error"
  | .invalidValue field reason => s!"invalid value for {field}: {reason}"

/-- How keys are matched with readings. -/
structure ConversionSettings where
  useModifierInsensitiveConversion : Bool := true
  deriving DecidableEq, Repr, Inhabited

/-- How many history segments and candidates are kept. -/
structure SegmentsSettings where
  maxHistorySegments : Nat := 4
  maxConversionCandidates : Nat := 200
  maxPredictionCandidates : Nat := 10
  deriving DecidableEq, Repr, Inhabited

/-- How data sets are written; the alignment is in bits. -/
structure DataSetSettings where
  defaultAlignment : Nat := 32
  deriving DecidableEq, Repr, Inhabited

/-- The settings of the engine. -/
structure Settings where
  conversion : ConversionSettings := {}
  segments : SegmentsSettings := {}
  dataSet : DataSetSettings := {}
  deriving DecidableEq, Repr, Inhabited

/-- The greatest number of history segments that may be kept. -/
def historyLimit : Nat := 32

/-- Refuses a value of zero. -/
def requirePositive (field : String) (value : Nat) : Except SettingsError Unit :=
  if value = 0 then .error (.invalidValue field "must be positive") else .ok ()

/-- Refuses settings that exceed a limit. -/
def Settings.validate (s : Settings) : Except SettingsError Unit := do
  requirePositive "segments.max_conversion_candidates" s.segments.maxConversionCandidates
  requirePositive "segments.max_prediction_candidates" s.segments.maxPredictionCandidates
  if historyLimit < s.segments.maxHistorySegments then
    throw (.invalidValue "segments.max_history_segments" s!"must be at most {historyLimit}")
  if s.dataSet.defaultAlignment ∉ [8, 16, 32, 64] then
    throw (.invalidValue "data_set.default_alignment" "must be one of 8, 16, 32, 64")

/-- What holds where no settings are given keeps the limits. -/
theorem Settings.validate_default : ({} : Settings).validate = .ok () := rfl

end KanaKanji
