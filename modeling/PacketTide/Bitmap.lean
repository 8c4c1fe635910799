import Mathlib.Algebra.GroupWithZero.Nat
import Mathlib.Data.List.Basic

/-!
# Receipt bitmaps

The receiver records the chunks it holds in words of 64 bits, chunk `64 * w + b` in bit `b` of
word `w`.
-/

namespace PacketTide

/-- One bit for each chunk. -/
abbrev Bitmap : Type := List (BitVec 64)

def bitmapContains (bitmap : Bitmap) (sequence : Nat) : Bool :=
  match bitmap[sequence / 64]? with
  | some word => word &&& (1#64 <<< (sequence % 64)) != 0#64
  | none => false

/-- Set the bit of a chunk; a chunk beyond the words of the bitmap is not recorded. -/
def bitmapInsert (bitmap : Bitmap) (sequence : Nat) : Bitmap :=
  bitmap.modify (sequence / 64) (· ||| (1#64 <<< (sequence % 64)))

/-- The number of set bits of a word. -/
def countOnes (word : BitVec 64) : Nat := (List.range 64).countP word.getLsbD

/-- The number of recorded chunks. -/
def bitmapCount (bitmap : Bitmap) : Nat := (bitmap.map countOnes).sum

/-- The number of words for a number of chunks. -/
def bitmapWords (chunks : Nat) : Nat := (chunks + 63) / 64

/-- A bitmap for a number of chunks that records none beyond them. -/
structure BitmapFor (chunks : Nat) (bitmap : Bitmap) : Prop where
  length_eq : bitmap.length = bitmapWords chunks
  lt_chunks : ∀ i, bitmapContains bitmap i → i < chunks

end PacketTide
