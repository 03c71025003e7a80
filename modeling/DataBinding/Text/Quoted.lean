import DataBinding.Text.Hexadecimal
import DataBinding.Text.Hidden

/-!
# Quoted texts

A text between double quotes, in which the quote, the backslash, the usual control characters and
every hidden character are escaped.
-/

namespace DataBinding.Text

/-- A character inside quotes. -/
def quotedChar (c : Char) : String :=
  match c with
  | '"' => "\\\""
  | '\\' => "\\\\"
  | '\n' => "\\n"
  | '\r' => "\\r"
  | '\t' => "\\t"
  | '\x00' => "\\0"
  | c => if isHidden c then "\\u\x7b" ++ hexadecimal c.toNat ++ "\x7d" else c.toString

/-- A text in quotes. -/
def quoted (s : String) : String :=
  "\"" ++ String.join (s.toList.map quotedChar) ++ "\""

end DataBinding.Text
