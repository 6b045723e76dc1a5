import BindingTypes.Text.Graphic
import BindingTypes.Text.GraphemeExtend
import BindingTypes.Text.DefaultIgnorable
import BindingTypes.Text.Basic

namespace BindingTypes.Text

/-- The escape of a character by its code point. -/
def codePoint (c : Char) : Text :=
  '\\' :: 'u' :: '\x7b' :: Nat.toDigits 16 c.toNat ++ ['\x7d']

/-- The character is seen when it stands on its own. -/
def isVisible (c : Char) : Bool :=
  isGraphic c && !isDefaultIgnorable c && (!isGraphemeExtend c || isVoicingMark c)

/-- What stands for a character between quotes: itself if it is visible and neither a quote nor a
backslash. -/
def quotedChar (c : Char) : Text :=
  if c = '"' || c = '\\' then ['\\', c]
  else if c = '\t' then ['\\', 't']
  else if c = '\n' then ['\\', 'n']
  else if c = '\r' then ['\\', 'r']
  else if c = '\x00' then ['\\', '0']
  else if isVisible c then [c]
  else codePoint c

/-- A text between quotes. -/
def quoted (t : Text) : Text := '"' :: t.flatMap quotedChar ++ ['"']

end BindingTypes.Text
