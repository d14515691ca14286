import FixedPool.Text.Hidden

/-!
Text between double quotes, for messages: quotes, backslashes and hidden characters are escaped.
-/

namespace FixedPool.Text

/-- The lower-case hexadecimal digits of a number, at least one. -/
def hexDigits (n : Nat) : String := .ofList (Nat.toDigits 16 n)

/-- A character as it stands in quoted text. -/
def escape (c : Char) : String :=
  match c.toNat with
  | 0x00 => "\\0"
  | 0x09 => "\\t"
  | 0x0A => "\\n"
  | 0x0D => "\\r"
  | 0x22 => "\\\""
  | 0x5C => "\\\\"
  | n => if isHidden c then "\\u\x7b" ++ hexDigits n ++ "\x7d" else c.toString

/-- Text between double quotes, with every character escaped that would not show there. -/
def quoted (s : String) : String :=
  "\"" ++ String.join (s.toList.map escape) ++ "\""

end FixedPool.Text
