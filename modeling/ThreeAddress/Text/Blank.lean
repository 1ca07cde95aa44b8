/-
Words of a line. A listing separates its words by white space in the sense of
the Unicode `White_Space` property, which is wider than the ASCII blanks and
leaves out the zero-width characters. All text is handled as a list of
characters, so that cutting and trimming are recursion on the list.
-/

namespace ThreeAddress.Text

/-- Whether a character is white space: the characters with the Unicode property
`White_Space`. -/
def isBlank (c : Char) : Bool :=
  let code := c.toNat
  (9 ≤ code && code ≤ 13) || code == 0x20 || code == 0x85 || code == 0xA0 || code == 0x1680 ||
    (0x2000 ≤ code && code ≤ 0x200A) || code == 0x2028 || code == 0x2029 || code == 0x202F ||
    code == 0x205F || code == 0x3000

/-- The text without the white space in front of it. -/
def trimStart (text : List Char) : List Char :=
  text.dropWhile isBlank

/-- The text without the white space behind it. -/
def trimEnd (text : List Char) : List Char :=
  (text.reverse.dropWhile isBlank).reverse

/-- The text without white space on either side. -/
def trim (text : List Char) : List Char :=
  trimEnd (trimStart text)

/-- The pieces between the characters that satisfy `divides`; there is always at least one. -/
def pieces (divides : Char → Bool) : List Char → List (List Char)
  | [] => [[]]
  | c :: rest =>
    if divides c then [] :: pieces divides rest
    else
      match pieces divides rest with
      | [] => [[c]]
      | piece :: others => (c :: piece) :: others

/-- The maximal runs of characters other than white space, in order. -/
def words (text : List Char) : List (List Char) :=
  (pieces isBlank text).filter fun piece => !piece.isEmpty

/-- The text before and after the first `mark`, if there is one. -/
def cut? (mark : Char) : List Char → Option (List Char × List Char)
  | [] => none
  | c :: rest =>
    if c = mark then some ([], rest)
    else (cut? mark rest).map fun (before, after) => (c :: before, after)

/-- Whether two texts are equal once ASCII letters are taken as lower case. -/
def sameLetters (first second : List Char) : Bool :=
  first.map Char.toLower == second.map Char.toLower

end ThreeAddress.Text
