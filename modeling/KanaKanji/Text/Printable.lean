import KanaKanji.Text.Extending
import KanaKanji.Text.Hidden
import KanaKanji.Text.Ignorable

/-!
# Characters that show by themselves

A character shows by itself if it shows at all, does not extend the character before it and is never
left out.
-/

set_option autoImplicit false

namespace KanaKanji.Printable

/-- Whether a character shows by itself. -/
def showsAlone (c : Char) : Bool :=
  !Hidden.isHidden c && !Extending.isExtending c && !Ignorable.isIgnorable c

end KanaKanji.Printable
