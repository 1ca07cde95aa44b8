/-
String literals in a listing. A character that could end a word, start a comment
or start an escape is written as a backslash and three decimal digits of its
code, so a written literal never contains white space of the ASCII range, `#`,
or a backslash that does not start an escape.
-/

namespace ThreeAddress.Text

/-- Whether a character of a string literal is written by its code. -/
def isEscaped (c : Char) : Bool :=
  c.toNat ≤ 32 || c == '#' || c == '\\'

/-- The decimal digit for a number below ten. -/
def digitChar (n : Nat) : Char :=
  Char.ofNat (48 + n)

/-- The number a decimal digit stands for. -/
def digitValue (c : Char) : Nat :=
  c.toNat - 48

/-- A backslash and the three digits of a character's code. -/
def escapeSequence (c : Char) : List Char :=
  let code := c.toNat
  ['\\', digitChar (code / 100), digitChar (code / 10 % 10), digitChar (code % 10)]

/-- The written form of a string literal. -/
def escape : List Char → List Char
  | [] => []
  | c :: rest => (if isEscaped c then escapeSequence c else [c]) ++ escape rest

/-- The character that three digits stand for, if they are digits. -/
def decodeDigits? (a b c : Char) : Option Char :=
  if a.isDigit && b.isDigit && c.isDigit then
    some (Char.ofNat (100 * digitValue a + 10 * digitValue b + digitValue c))
  else none

/-- The string that a written literal stands for. Every backslash has to be followed by three
digits. -/
def unescape? : List Char → Option (List Char)
  | [] => some []
  | '\\' :: a :: b :: c :: rest => do
    let decoded ← decodeDigits? a b c
    let others ← unescape? rest
    return decoded :: others
  | c :: rest => if c = '\\' then none else (unescape? rest).map (c :: ·)

end ThreeAddress.Text
