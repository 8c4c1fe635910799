import Mathlib.Algebra.Group.Int.Defs
import Mathlib.Algebra.GroupWithZero.Nat
import Mathlib.Data.List.Basic

/-!
# Strings as bytes

A string is the list of its UTF-8 bytes. The operations are those of a standard library with such
strings: splitting, decimal and hexadecimal text, and slices by byte offsets, which exist only
between characters.
-/

namespace Text

/-- A string, by its UTF-8 bytes. -/
abbrev Str : Type := List UInt8

instance : LawfulBEq Str := inferInstance

/-- The bytes of a literal. -/
def ascii (s : String) : Str := s.toUTF8.data.toList

def space : UInt8 := 32

def newline : UInt8 := 10

def carriageReturn : UInt8 := 13

/-! ## Validity -/

/-- A continuation byte of a character of several bytes. -/
def isContinuation (b : UInt8) : Bool := 0x80 ≤ b && b ≤ 0xBF

/-- Whether bytes are well-formed UTF-8: no overlong forms, no surrogates, at most U+10FFFF. -/
def validUtf8 : List UInt8 → Bool
  | [] => true
  | a :: rest =>
    if a < 0x80 then validUtf8 rest else
    match rest with
    | [] => false
    | b :: rest =>
      if 0xC2 ≤ a && a ≤ 0xDF then isContinuation b && validUtf8 rest else
      match rest with
      | [] => false
      | c :: rest =>
        if 0xE0 ≤ a && a ≤ 0xEF then
          isContinuation b && (a != 0xE0 || 0xA0 ≤ b) && (a != 0xED || b ≤ 0x9F)
            && isContinuation c && validUtf8 rest
        else
          match rest with
          | [] => false
          | d :: rest =>
            0xF0 ≤ a && a ≤ 0xF4 && isContinuation b && (a != 0xF0 || 0x90 ≤ b)
              && (a != 0xF4 || b ≤ 0x8F) && isContinuation c && isContinuation d && validUtf8 rest

/-- The string that bytes form, if they form one. -/
def fromUtf8 (bytes : List UInt8) : Option Str := if validUtf8 bytes then some bytes else none

/-- Whether a byte offset lies between two characters of a string. -/
def isCharBoundary (s : Str) (i : Nat) : Bool :=
  match s[i]? with
  | some b => !isContinuation b
  | none => i == s.length

/-- The slice between two byte offsets; there is none if an offset is not between characters. -/
def slice (s : Str) (i j : Nat) : Option Str :=
  if i ≤ j && isCharBoundary s i && isCharBoundary s j then some ((s.take j).drop i) else none

/-! ## Splitting -/

/-- The string without a prefix, if it starts with it. -/
def stripPrefix (p s : Str) : Option Str := if p <+: s then some (s.drop p.length) else none

/-- The string without a suffix, if it ends with it. -/
def stripSuffix (p s : Str) : Option Str :=
  if p <:+ s then some (s.take (s.length - p.length)) else none

/-- The parts before and after the first separator. -/
def splitOnce (sep : UInt8) : Str → Option (Str × Str)
  | [] => none
  | b :: s => if b = sep then some ([], s) else (splitOnce sep s).map fun p => (b :: p.1, p.2)

/-- The parts before and after the last separator. -/
def rsplitOnce (sep : UInt8) (s : Str) : Option (Str × Str) :=
  (splitOnce sep s.reverse).map fun p => (p.2.reverse, p.1.reverse)

/-- At most a number of parts between separators; the last part keeps the separators that are left. -/
def splitN (sep : UInt8) : Nat → Str → List Str
  | 0, _ => []
  | 1, s => [s]
  | n + 2, s =>
    match splitOnce sep s with
    | none => [s]
    | some (part, rest) => part :: splitN sep (n + 1) rest

/-- The lines of a string: a newline ends a line, and a carriage return before it belongs to the
ending. What follows the last newline is a line of its own unless it is empty. -/
def lines (s : Str) : List Str :=
  let parts := s.splitOn newline
  let ended := parts.dropLast.map fun l => (stripSuffix [carriageReturn] l).getD l
  match parts.getLast? with
  | some (b :: l) => ended ++ [b :: l]
  | _ => ended

/-- The white space of Unicode, by its encodings. -/
def whitespace : List Str :=
  [[9], [10], [11], [12], [13], [32], [0xC2, 0x85], [0xC2, 0xA0], [0xE1, 0x9A, 0x80],
    [0xE2, 0x80, 0x80], [0xE2, 0x80, 0x81], [0xE2, 0x80, 0x82], [0xE2, 0x80, 0x83],
    [0xE2, 0x80, 0x84], [0xE2, 0x80, 0x85], [0xE2, 0x80, 0x86], [0xE2, 0x80, 0x87],
    [0xE2, 0x80, 0x88], [0xE2, 0x80, 0x89], [0xE2, 0x80, 0x8A], [0xE2, 0x80, 0xA8],
    [0xE2, 0x80, 0xA9], [0xE2, 0x80, 0xAF], [0xE2, 0x81, 0x9F], [0xE3, 0x80, 0x80]]

/-- The bytes of the white space that a string starts with; zero if it starts with none. -/
def leadingWhitespace (s : Str) : Nat :=
  match whitespace.find? fun w => w.isPrefixOf s with
  | some w => w.length
  | none => 0

/-- The maximal runs between white space: `skip` bytes of white space are still to be passed over,
and `word` is the run read so far. -/
def splitWhitespaceFrom : Nat → Str → Str → List Str
  | _, word, [] => if word.isEmpty then [] else [word]
  | skip + 1, word, _ :: s => splitWhitespaceFrom skip word s
  | 0, word, b :: s =>
    match leadingWhitespace (b :: s) with
    | 0 => splitWhitespaceFrom 0 (word ++ [b]) s
    | n + 1 => (if word.isEmpty then [] else [word]) ++ splitWhitespaceFrom n [] s

/-- The parts of a string between white space; none of them is empty. -/
def splitWhitespace (s : Str) : List Str := splitWhitespaceFrom 0 [] s

/-! ## Numbers -/

def isDigit (b : UInt8) : Bool := 48 ≤ b && b ≤ 57

/-- The value of a digit in a radix of at most sixteen; letters may have either case. -/
def digitValue (radix : Nat) (b : UInt8) : Option Nat :=
  let v :=
    if isDigit b then some (b.toNat - 48)
    else if 97 ≤ b && b ≤ 102 then some (b.toNat - 87)
    else if 65 ≤ b && b ≤ 70 then some (b.toNat - 55)
    else none
  v.filter (· < radix)

/-- The value of a string of digits. -/
def digitsValue (radix : Nat) (s : Str) : Option Nat :=
  s.foldl (fun acc b => acc.bind fun n => (digitValue radix b).map fun d => n * radix + d) (some 0)

/-- An unsigned number below `2 ^ bits`; a leading plus sign is allowed. -/
def parseUnsigned (bits radix : Nat) (s : Str) : Option Nat :=
  let digits := (stripPrefix [43] s).getD s
  if digits.isEmpty then none else (digitsValue radix digits).filter (· < 2 ^ bits)

/-- A signed number of `bits` bits; a leading sign is allowed. -/
def parseSigned (bits radix : Nat) (s : Str) : Option Int :=
  match stripPrefix [45] s with
  | some digits =>
    if digits.isEmpty then none
    else ((digitsValue radix digits).filter (· ≤ 2 ^ (bits - 1))).map fun n => -(n : Int)
  | none => (parseUnsigned (bits - 1) radix s).map fun n => (n : Int)

/-- A number in decimal. -/
def decimal (n : Nat) : Str := (Nat.toDigits 10 n).map fun c => c.toNat.toUInt8

/-- A signed number in decimal. -/
def decimalInt (n : Int) : Str := if n < 0 then 45 :: decimal n.natAbs else decimal n.natAbs

/-- The lower-case digit of a number below sixteen. -/
def hexDigit (n : UInt8) : UInt8 := if n < 10 then 48 + n else 87 + n

/-- Whether a byte is a lower-case hexadecimal digit. -/
def isLowerHexDigit (b : UInt8) : Bool := isDigit b || (97 ≤ b && b ≤ 102)

/-- Bytes in lower-case hexadecimal. -/
def hex (bytes : List UInt8) : Str :=
  bytes.flatMap fun b : UInt8 => [hexDigit (b >>> 4), hexDigit (b &&& 15)]

/-- A number of 64 bits as eight bytes, the highest first. -/
def toBeBytes (n : Nat) : List UInt8 :=
  [7, 6, 5, 4, 3, 2, 1, 0].map fun i => UInt8.ofNat (n >>> (8 * i))

/-- The number that bytes form, the highest first. -/
def fromBeBytes (bytes : List UInt8) : Nat := bytes.foldl (fun n b => n * 256 + b.toNat) 0

example : parseUnsigned 8 16 (ascii "+f") = some 15 := by decide

example : splitWhitespace (ascii " a  b\n") = [ascii "a", ascii "b"] := by decide

end Text
