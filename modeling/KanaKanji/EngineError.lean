import KanaKanji.Files.Access
import KanaKanji.Lexicon.Areas
import KanaKanji.Settings.Basic

/-!
# Errors of the engine

Why a data file or the settings of the engine cannot be opened: the file cannot be read, or what is
in it is not a data set, not a lexicon or no settings.
-/

set_option autoImplicit false

namespace KanaKanji

/-- Why a data file or settings cannot be opened. -/
inductive EngineError
  | file (cause : FileError)
  | dataSet (cause : DataSet.Error)
  | lexicon (cause : Lexicon.Error)
  | settings (cause : SettingsError)
  deriving DecidableEq, Repr

/-- The message for a data file or settings that cannot be opened. -/
def EngineError.message : EngineError → String
  | .file cause => s!"I/O error: {cause.message}"
  | .dataSet cause => s!"data set error: {cause.message}"
  | .lexicon cause => s!"dictionary error: {cause.message}"
  | .settings cause => s!"settings error: {cause.message}"

end KanaKanji
