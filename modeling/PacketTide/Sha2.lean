import PacketTide.Digest

/-!
# SHA-256

The hash function itself, by the words of 32 bits of its standard. Everything else is about any hash
function; this one is for evaluating the model on inputs.
-/

namespace Sha2

open Text

def constants : List UInt32 :=
  [0x428a2f98, 0x71374491, 0xb5c0fbcf, 0xe9b5dba5, 0x3956c25b, 0x59f111f1, 0x923f82a4, 0xab1c5ed5,
    0xd807aa98, 0x12835b01, 0x243185be, 0x550c7dc3, 0x72be5d74, 0x80deb1fe, 0x9bdc06a7, 0xc19bf174,
    0xe49b69c1, 0xefbe4786, 0x0fc19dc6, 0x240ca1cc, 0x2de92c6f, 0x4a7484aa, 0x5cb0a9dc, 0x76f988da,
    0x983e5152, 0xa831c66d, 0xb00327c8, 0xbf597fc7, 0xc6e00bf3, 0xd5a79147, 0x06ca6351, 0x14292967,
    0x27b70a85, 0x2e1b2138, 0x4d2c6dfc, 0x53380d13, 0x650a7354, 0x766a0abb, 0x81c2c92e, 0x92722c85,
    0xa2bfe8a1, 0xa81a664b, 0xc24b8b70, 0xc76c51a3, 0xd192e819, 0xd6990624, 0xf40e3585, 0x106aa070,
    0x19a4c116, 0x1e376c08, 0x2748774c, 0x34b0bcb5, 0x391c0cb3, 0x4ed8aa4a, 0x5b9cca4f, 0x682e6ff3,
    0x748f82ee, 0x78a5636f, 0x84c87814, 0x8cc70208, 0x90befffa, 0xa4506ceb, 0xbef9a3f7, 0xc67178f2]

def rotateRight (x n : UInt32) : UInt32 := (x >>> n) ||| (x <<< (32 - n))

/-- The eight words of a state. -/
structure State where
  a : UInt32
  b : UInt32
  c : UInt32
  d : UInt32
  e : UInt32
  f : UInt32
  g : UInt32
  h : UInt32

def initial : State where
  a := 0x6a09e667
  b := 0xbb67ae85
  c := 0x3c6ef372
  d := 0xa54ff53a
  e := 0x510e527f
  f := 0x9b05688c
  g := 0x1f83d9ab
  h := 0x5be0cd19

/-- The words of a block. -/
def blockWords : List UInt8 → List UInt32
  | a :: b :: c :: d :: rest =>
    (a.toUInt32 <<< 24 ||| b.toUInt32 <<< 16 ||| c.toUInt32 <<< 8 ||| d.toUInt32) :: blockWords rest
  | _ => []

/-- The next word of a message schedule, from its words in reverse. -/
def nextWord (words : List UInt32) : UInt32 :=
  let w15 := words.getD 14 0
  let w2 := words.getD 1 0
  let s0 := rotateRight w15 7 ^^^ rotateRight w15 18 ^^^ (w15 >>> 3)
  let s1 := rotateRight w2 17 ^^^ rotateRight w2 19 ^^^ (w2 >>> 10)
  words.getD 15 0 + s0 + words.getD 6 0 + s1

def extend : Nat → List UInt32 → List UInt32
  | 0, words => words
  | n + 1, words => extend n (nextWord words :: words)

def round (s : State) (constant word : UInt32) : State :=
  let s1 := rotateRight s.e 6 ^^^ rotateRight s.e 11 ^^^ rotateRight s.e 25
  let ch := (s.e &&& s.f) ^^^ (~~~s.e &&& s.g)
  let temp1 := s.h + s1 + ch + constant + word
  let s0 := rotateRight s.a 2 ^^^ rotateRight s.a 13 ^^^ rotateRight s.a 22
  let maj := (s.a &&& s.b) ^^^ (s.a &&& s.c) ^^^ (s.b &&& s.c)
  ⟨temp1 + s0 + maj, s.a, s.b, s.c, s.d + temp1, s.e, s.f, s.g⟩

def compress (s : State) (block : List UInt8) : State :=
  let words := (extend 48 (blockWords block).reverse).reverse
  let t := (constants.zip words).foldl (fun t kw => round t kw.1 kw.2) s
  ⟨s.a + t.a, s.b + t.b, s.c + t.c, s.d + t.d, s.e + t.e, s.f + t.f, s.g + t.g, s.h + t.h⟩

def pad (bytes : List UInt8) : List UInt8 :=
  bytes ++ [0x80] ++ List.replicate ((119 - bytes.length % 64) % 64) 0 ++ toBeBytes (8 * bytes.length)

/-- Compress a number of blocks. -/
def compressAll : Nat → State → List UInt8 → State
  | 0, s, _ => s
  | n + 1, s, bytes => compressAll n (compress s (bytes.take 64)) (bytes.drop 64)

def byteOf (word : UInt32) (shift : UInt32) : UInt8 := (word >>> shift).toUInt8

def digest (bytes : List UInt8) : Vector UInt8 32 :=
  let padded := pad bytes
  let s := compressAll (padded.length / 64) initial padded
  #v[byteOf s.a 24, byteOf s.a 16, byteOf s.a 8, byteOf s.a 0,
    byteOf s.b 24, byteOf s.b 16, byteOf s.b 8, byteOf s.b 0,
    byteOf s.c 24, byteOf s.c 16, byteOf s.c 8, byteOf s.c 0,
    byteOf s.d 24, byteOf s.d 16, byteOf s.d 8, byteOf s.d 0,
    byteOf s.e 24, byteOf s.e 16, byteOf s.e 8, byteOf s.e 0,
    byteOf s.f 24, byteOf s.f 16, byteOf s.f 8, byteOf s.f 0,
    byteOf s.g 24, byteOf s.g 16, byteOf s.g 8, byteOf s.g 0,
    byteOf s.h 24, byteOf s.h 16, byteOf s.h 8, byteOf s.h 0]

end Sha2

namespace PacketTide

open Text

/-- The hash function of the standard. -/
@[reducible] def sha2 : Sha256 := ⟨Sha2.digest⟩

example : hex (Hash.bytes (sha2.digest (ascii "abc"))) =
    ascii "ba7816bf8f01cfea414140de5dae2223b00361a396177a9cb410ff61f20015ad" := by decide +kernel

end PacketTide
