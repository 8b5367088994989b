import Mathlib.Algebra.GroupWithZero.Nat
import Mathlib.Order.Lattice
import Mathlib.Data.List.Basic

/-!
# Text as bytes

Strings as the bytes of their UTF-8 form, with the operations on them that do not
depend on tables of characters: cutting and joining, white space, decimal numbers,
and telling whether bytes are a string at all. Upper and lower case beyond ASCII are
left out.
-/

namespace Text

/-- The bytes of a string. -/
def ofString (s : String) : List UInt8 := s.toUTF8.data.toList

instance coeString : Coe String (List UInt8) := ⟨ofString⟩

/-- A number in decimal. -/
def decimal (n : Nat) : List UInt8 := ofString (Nat.repr n)

/-! ## Cutting and joining -/

/-- Where the first occurrence of a text starts. -/
def find (needle : List UInt8) : List UInt8 → Option Nat
  | [] => if needle.isEmpty then some 0 else none
  | b :: rest =>
    if needle.isPrefixOf (b :: rest) then some 0 else (find needle rest).map (· + 1)

def contains (needle s : List UInt8) : Bool := (find needle s).isSome

/-- Where the last occurrence of a byte is. -/
def rfind (b : UInt8) (s : List UInt8) : Option Nat :=
  (s.reverse.findIdx? (· == b)).map fun i => s.length - 1 - i

/-- The parts between the separators, at most as many as given; the last one is the rest. -/
def splitN (sep : UInt8) : Nat → List UInt8 → List (List UInt8)
  | 0, _ => []
  | 1, s => [s]
  | n + 2, s =>
    match s.findIdx? (· == sep) with
    | none => [s]
    | some i => s.take i :: splitN sep (n + 1) (s.drop (i + 1))

/-- The parts between the separators. There is always one more of them than separators. -/
def splitOn (sep : UInt8) : List UInt8 → List (List UInt8)
  | [] => [[]]
  | b :: rest =>
    if b = sep then [] :: splitOn sep rest
    else
      match splitOn sep rest with
      | [] => [[b]]
      | part :: parts => (b :: part) :: parts

def join (sep : List UInt8) (parts : List (List UInt8)) : List UInt8 := sep.intercalate parts

/-- The text behind the next bytes, with a pattern replaced from left to right. -/
def replaceFrom (pattern new : List UInt8) : Nat → List UInt8 → List UInt8
  | _, [] => []
  | n + 1, _ :: rest => replaceFrom pattern new n rest
  | 0, b :: rest =>
    if pattern.isPrefixOf (b :: rest) then new ++ replaceFrom pattern new (pattern.length - 1) rest
    else b :: replaceFrom pattern new 0 rest

/-- A text with every occurrence of a pattern that is not empty replaced. -/
def replace (pattern new s : List UInt8) : List UInt8 := replaceFrom pattern new 0 s

/-- The lines. The end of a line is a line feed, and a carriage return before it belongs to it; a
last line need not have one. -/
def lines (s : List UInt8) : List (List UInt8) :=
  let parts := splitOn 10 s
  let ended := parts.dropLast.map fun line =>
    if line.getLast? = some 13 then line.dropLast else line
  match parts.getLast? with
  | none => ended
  | some last => if last.isEmpty then ended else ended ++ [last]

/-- Without the bytes of a kind at both ends. -/
def trimMatches (p : UInt8 → Bool) (s : List UInt8) : List UInt8 :=
  ((s.dropWhile p).reverse.dropWhile p).reverse

/-- Without the bytes of a kind at the end. -/
def trimEndMatches (p : UInt8 → Bool) (s : List UInt8) : List UInt8 :=
  (s.reverse.dropWhile p).reverse

/-- A character starts at this position, or the text ends there. -/
def isCharBoundary (s : List UInt8) (i : Nat) : Bool :=
  match s[i]? with
  | some b => b < 0x80 || 0xC0 ≤ b
  | none => i == s.length

/-- The part between two positions, if there is one between them that is made of characters. -/
def slice? (s : List UInt8) (a b : Nat) : Option (List UInt8) :=
  if a ≤ b && isCharBoundary s a && isCharBoundary s b then some ((s.drop a).take (b - a)) else none

/-! ## White space -/

/-- A character of three bytes that is white space. -/
def isWideSpace (a b c : UInt8) : Bool :=
  (a == 0xE1 && b == 0x9A && c == 0x80) ||
  (a == 0xE2 && b == 0x80 && ((0x80 ≤ c && c ≤ 0x8A) || c == 0xA8 || c == 0xA9 || c == 0xAF)) ||
  (a == 0xE2 && b == 0x81 && c == 0x9F) ||
  (a == 0xE3 && b == 0x80 && c == 0x80)

/-- The length of the white space character at the beginning, or 0. -/
def spaceWidth : List UInt8 → Nat
  | [] => 0
  | [a] => if (9 ≤ a && a ≤ 13) || a == 32 then 1 else 0
  | a :: b :: rest =>
    if (9 ≤ a && a ≤ 13) || a == 32 then 1
    else if a == 0xC2 && (b == 0x85 || b == 0xA0) then 2
    else if rest.head?.any (isWideSpace a b) then 3
    else 0

/-- The length of the white space character at the end of a text that is given backwards. -/
def spaceWidthBack : List UInt8 → Nat
  | [] => 0
  | [a] => if (9 ≤ a && a ≤ 13) || a == 32 then 1 else 0
  | b :: a :: rest =>
    if (9 ≤ b && b ≤ 13) || b == 32 then 1
    else if a == 0xC2 && (b == 0x85 || b == 0xA0) then 2
    else if rest.head?.any (fun c => isWideSpace c a b) then 3
    else 0

/-- Take characters off as long as there are some to take off, at most as many as given. -/
def dropSpaces (width : List UInt8 → Nat) : Nat → List UInt8 → List UInt8
  | 0, s => s
  | n + 1, s => if width s = 0 then s else dropSpaces width n (s.drop (width s))

def trimStart (s : List UInt8) : List UInt8 := dropSpaces spaceWidth s.length s

def trimEnd (s : List UInt8) : List UInt8 :=
  (dropSpaces spaceWidthBack s.length s.reverse).reverse

def trim (s : List UInt8) : List UInt8 := trimEnd (trimStart s)

/-- How far it is to the next white space. -/
def wordLength : List UInt8 → Nat
  | [] => 0
  | b :: rest => if spaceWidth (b :: rest) = 0 then wordLength rest + 1 else 0

/-- The words of a text, at most as many as given. -/
def words : Nat → List UInt8 → List (List UInt8)
  | 0, _ => []
  | n + 1, s =>
    let s := trimStart s
    if s.isEmpty then [] else s.take (wordLength s) :: words n (s.drop (wordLength s))

def splitWhitespace (s : List UInt8) : List (List UInt8) := words s.length s

example : splitWhitespace " id  INT " = ["id", "INT"] := by decide

/-! ## Case and numbers -/

def asciiLower (b : UInt8) : UInt8 := if 65 ≤ b && b ≤ 90 then b + 32 else b

def eqIgnoreAsciiCase (s t : List UInt8) : Bool := s.map asciiLower == t.map asciiLower

/-- The number that digits stand for. -/
def parseDigits (s : List UInt8) : Option Nat :=
  if s.isEmpty || !s.all (fun b => 48 ≤ b && b ≤ 57) then none
  else some (s.foldl (fun n b => 10 * n + (b - 48).toNat) 0)

/-- A number with an optional sign, within the range of a signed type of the given width. -/
def parseSigned (width : Nat) (s : List UInt8) : Option Int :=
  let bound := 2 ^ (width - 1)
  match s with
  | 45 :: digits => (parseDigits digits).bind fun n => if n ≤ bound then some (-n) else none
  | 43 :: digits => (parseDigits digits).bind fun n => if n < bound then some n else none
  | digits => (parseDigits digits).bind fun n => if n < bound then some n else none

/-- A number without a minus sign, within the range of an unsigned type of the given width. -/
def parseUnsigned (width : Nat) (s : List UInt8) : Option Nat :=
  match s with
  | 43 :: digits => (parseDigits digits).bind fun n => if n < 2 ^ width then some n else none
  | digits => (parseDigits digits).bind fun n => if n < 2 ^ width then some n else none

/-! ## Bytes that are text -/

/-- The byte goes on with a character. -/
def isContinuation (b : UInt8) : Bool := 0x80 ≤ b && b ≤ 0xBF

/-- What the second byte of a character may be, given the first one. -/
def isSecond (a b : UInt8) : Bool :=
  if a == 0xE0 then 0xA0 ≤ b && b ≤ 0xBF
  else if a == 0xED then 0x80 ≤ b && b ≤ 0x9F
  else if a == 0xF0 then 0x90 ≤ b && b ≤ 0xBF
  else if a == 0xF4 then 0x80 ≤ b && b ≤ 0x8F
  else isContinuation b

/-- The length of a character, given its first byte; 0 if there is none that starts so. -/
def charWidth (a : UInt8) : Nat :=
  if a < 0x80 then 1
  else if 0xC2 ≤ a && a ≤ 0xDF then 2
  else if 0xE0 ≤ a && a ≤ 0xEF then 3
  else if 0xF0 ≤ a && a ≤ 0xF4 then 4
  else 0

/-- How many bytes belong to the first character, and whether it is whole. Of a character that is
not, the bytes up to where it goes wrong are counted, at least one. -/
def firstChar : List UInt8 → Nat × Bool
  | [] => (0, true)
  | a :: rest =>
    let width := charWidth a
    if width = 0 then (1, false)
    else if width = 1 then (1, true)
    else
      match rest with
      | [] => (1, false)
      | b :: more =>
        if !isSecond a b then (1, false)
        else
          let good := (more.take (width - 2)).takeWhile isContinuation
          (2 + good.length, good.length == width - 2)

/-- The characters at the beginning, at most as many as given, with bytes that are not a character
replaced; and whether there were such bytes. -/
def decode : Nat → List UInt8 → List UInt8 × Bool
  | 0, _ => ([], true)
  | n + 1, s =>
    if s.isEmpty then ([], true)
    else
      let (width, whole) := firstChar s
      let (rest, ok) := decode n (s.drop width)
      ((if whole then s.take width else [0xEF, 0xBF, 0xBD]) ++ rest, whole && ok)

def isUtf8 (s : List UInt8) : Bool := (decode s.length s).2

/-- The bytes as a text, with the replacement character where they are not one. -/
def fromUtf8Lossy (s : List UInt8) : List UInt8 := (decode s.length s).1

example : fromUtf8Lossy [97, 0xF0, 0x9F, 98] = "a�b" := by decide

end Text
