import Playhead.Text.Printable

/-!
# Quoted text

A text that somebody typed is shown between double quotes (`Playhead.Text.quoted`). Quotes and
backslashes in it are escaped, so that the end of the text can be seen, and so is every character
that is not printable.
-/

namespace Playhead.Text

/-- The hexadecimal digits of a number, without zeros in front. -/
def hexadecimal (n : Nat) : String :=
  String.ofList (Nat.toDigits 16 n)

/-- A character between quotes. -/
def quotedChar (c : Char) : String :=
  match c with
  | '"' => "\\\""
  | '\\' => "\\\\"
  | '\n' => "\\n"
  | '\r' => "\\r"
  | '\t' => "\\t"
  | '\x00' => "\\0"
  | c => if isPrintable c then c.toString else "\\u\x7b" ++ hexadecimal c.toNat ++ "\x7d"

/-- A text between quotes. -/
def quoted (text : String) : String :=
  "\"" ++ String.join (text.toList.map quotedChar) ++ "\""

end Playhead.Text
