import Reparse.Text.Unprintable

/-!
Text in double quotes, with everything that would not show written as an escape.
-/

namespace Reparse.Quoted

/-- Lower-case hexadecimal digits without leading zeroes. -/
def hex (n : Nat) : String := String.ofList (Nat.toDigits 16 n)

def isPlain (c : Char) : Bool :=
  if c.toNat < 0x7f then 0x20 ≤ c.toNat else c.toNat ≠ 0x7f && !Unprintable.holds c

/-- A quote, a backslash and four control characters have short escapes; a single quote
stands for itself. -/
def escape (c : Char) : String :=
  match c with
  | '\x00' => "\\0"
  | '\t' => "\\t"
  | '\r' => "\\r"
  | '\n' => "\\n"
  | '"' => "\\\""
  | '\\' => "\\\\"
  | c => if isPlain c then c.toString else "\\u\x7b" ++ hex c.toNat ++ "\x7d"

def quote (s : String) : String :=
  "\"" ++ String.join (s.toList.map escape) ++ "\""

end Reparse.Quoted
