import SeaOfNodes.Text.Printable

/-!
# Quoted text

A text between double quotes. The quote and the backslash are escaped, the common control
characters have a letter each, and a character that cannot stand on its own is written as its
code point in braces.
-/

namespace SeaOfNodes.Text

/-- The digits of `n` in base sixteen, lower case, without leading zeros. -/
def hex (n : Nat) : String := String.ofList (Nat.toDigits 16 n)

/-- The value of a lower-case digit of base sixteen. -/
def hexDigit (c : Char) : Nat :=
  if c.isDigit then c.toNat - '0'.toNat else c.toNat - 'a'.toNat + 10

/-- The number that lower-case digits of base sixteen stand for. -/
def ofHex (digits : String) : Nat := digits.toList.foldl (fun n c => 16 * n + hexDigit c) 0

/-- A byte as two digits. -/
def hexByte (b : UInt8) : String := (if b < 16 then "0" else "") ++ hex b.toNat

/-- The bytes that are written as two digits each. -/
def bytesOfHex : List Char → List UInt8
  | high :: low :: rest => (16 * hexDigit high + hexDigit low).toUInt8 :: bytesOfHex rest
  | _ => []

/-- A character as it stands inside quotes. -/
def escapeChar (c : Char) : String :=
  if c = Char.ofNat 0 then "\\0"
  else if c = '\t' then "\\t"
  else if c = '\r' then "\\r"
  else if c = '\n' then "\\n"
  else if c = Char.ofNat 34 then "\\\""
  else if c = Char.ofNat 92 then "\\\\"
  else if isEscaped c then "\\u\x7b" ++ hex c.toNat ++ "\x7d"
  else c.toString

/-- The text between quotes, escaped so that it can be read back. -/
def quoted (text : String) : String :=
  "\"" ++ String.join (text.toList.map escapeChar) ++ "\""

end SeaOfNodes.Text
