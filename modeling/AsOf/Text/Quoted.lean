import AsOf.Text.Digits
import AsOf.Text.Extending
import AsOf.Text.Ignorable
import AsOf.Text.Nonprinting

/-!
# Quoted text

A text in double quotes, on one line, of which every character can be seen and
told apart: quotes and backslashes are escaped, the characters that move the line
have their letters, and any other character that has no shape, or none of its
own, is written by its number.
-/

namespace AsOf
namespace Text

/-- The two halfwidth sound marks, which belong to the letter before them but fill a cell. -/
def isSoundMark (c : Char) : Bool :=
  c == '\uff9e' || c == '\uff9f'

/-- Whether a character is drawn into the cell of the one before it. -/
def isCombining (c : Char) : Bool :=
  isExtending c && !isSoundMark c

/-- Whether a character has a shape of its own. -/
def isVisible (c : Char) : Bool :=
  !(isNonprinting c || isIgnorable c || isCombining c)

/-- A character written by its number. -/
def numbered (c : Char) : String :=
  "\\u\x7b" ++ hexadecimal c.toNat ++ "\x7d"

/-- The written form of one character of a quoted text. -/
def escape (c : Char) : String :=
  match c with
  | '"' => "\\\""
  | '\\' => "\\\\"
  | '\t' => "\\t"
  | '\n' => "\\n"
  | '\r' => "\\r"
  | '\x00' => "\\0"
  | c => if isVisible c then c.toString else numbered c

def quote (s : String) : String :=
  "\"" ++ String.join (s.toList.map escape) ++ "\""

example : escape 'é' = "é" := by decide +kernel

example : escape '\uff9e' = "\uff9e" := by decide +kernel

example : escape '\u0301' = "\\u\x7b301\x7d" := by decide +kernel

example : escape '\u2028' = "\\u\x7b2028\x7d" := by decide +kernel

example : escape '\u115f' = "\\u\x7b115f\x7d" := by decide +kernel

end Text
end AsOf
