import Coverability.Text.Bytes

/-! The secure hash standard's 256-bit function. A message is padded to whole blocks of 64
bytes, and each block is mixed into eight registers in 64 rounds. -/

namespace Coverability.Sha256
open Text

structure Registers where
  a : UInt32
  b : UInt32
  c : UInt32
  d : UInt32
  e : UInt32
  f : UInt32
  g : UInt32
  h : UInt32

def roundConstants : List UInt32 :=
  [0x428a2f98, 0x71374491, 0xb5c0fbcf, 0xe9b5dba5, 0x3956c25b, 0x59f111f1, 0x923f82a4, 0xab1c5ed5,
   0xd807aa98, 0x12835b01, 0x243185be, 0x550c7dc3, 0x72be5d74, 0x80deb1fe, 0x9bdc06a7, 0xc19bf174,
   0xe49b69c1, 0xefbe4786, 0x0fc19dc6, 0x240ca1cc, 0x2de92c6f, 0x4a7484aa, 0x5cb0a9dc, 0x76f988da,
   0x983e5152, 0xa831c66d, 0xb00327c8, 0xbf597fc7, 0xc6e00bf3, 0xd5a79147, 0x06ca6351, 0x14292967,
   0x27b70a85, 0x2e1b2138, 0x4d2c6dfc, 0x53380d13, 0x650a7354, 0x766a0abb, 0x81c2c92e, 0x92722c85,
   0xa2bfe8a1, 0xa81a664b, 0xc24b8b70, 0xc76c51a3, 0xd192e819, 0xd6990624, 0xf40e3585, 0x106aa070,
   0x19a4c116, 0x1e376c08, 0x2748774c, 0x34b0bcb5, 0x391c0cb3, 0x4ed8aa4a, 0x5b9cca4f, 0x682e6ff3,
   0x748f82ee, 0x78a5636f, 0x84c87814, 0x8cc70208, 0x90befffa, 0xa4506ceb, 0xbef9a3f7, 0xc67178f2]

def initial : Registers :=
  ⟨0x6a09e667, 0xbb67ae85, 0x3c6ef372, 0xa54ff53a, 0x510e527f, 0x9b05688c, 0x1f83d9ab, 0x5be0cd19⟩

def rotateRight (word amount : UInt32) : UInt32 := (word >>> amount) ||| (word <<< (32 - amount))

/-- Turns the window of the last sixteen words into the next one. -/
def nextWord (window : Array UInt32) : UInt32 :=
  let early := window.getD 1 0
  let late := window.getD 14 0
  let small := rotateRight early 7 ^^^ rotateRight early 18 ^^^ (early >>> 3)
  let large := rotateRight late 17 ^^^ rotateRight late 19 ^^^ (late >>> 10)
  window.getD 0 0 + small + window.getD 9 0 + large

def round (r : Registers) (constant word : UInt32) : Registers :=
  let mixed := rotateRight r.e 6 ^^^ rotateRight r.e 11 ^^^ rotateRight r.e 25
  let chosen := (r.e &&& r.f) ^^^ (r.e.complement &&& r.g)
  let first := r.h + mixed + chosen + constant + word
  let spread := rotateRight r.a 2 ^^^ rotateRight r.a 13 ^^^ rotateRight r.a 22
  let majority := (r.a &&& r.b) ^^^ (r.a &&& r.c) ^^^ (r.b &&& r.c)
  ⟨first + (spread + majority), r.a, r.b, r.c, r.d + first, r.e, r.f, r.g⟩

def rounds (r : Registers) (window : Array UInt32) : List UInt32 → Registers
  | [] => r
  | constant :: rest =>
    rounds (round r constant (window.getD 0 0)) ((window.extract 1 16).push (nextWord window)) rest

/-- Adds the outcome of the rounds to the registers they started from. -/
def compress (r : Registers) (block : Array UInt32) : Registers :=
  let s := rounds r block roundConstants
  ⟨r.a + s.a, r.b + s.b, r.c + s.c, r.d + s.d, r.e + s.e, r.f + s.f, r.g + s.g, r.h + s.h⟩

def words : Bytes → List UInt32
  | a :: b :: c :: d :: rest => (ofBigEndian [a, b, c, d]).toUInt32 :: words rest
  | _ => []

def blocks (message : List UInt32) : Nat → List (Array UInt32)
  | 0 => []
  | count + 1 => (message.take 16).toArray :: blocks (message.drop 16) count

/-- A one bit, zeros, and the length in bits, up to a whole number of blocks. -/
def pad (message : Bytes) : Bytes :=
  let zeros := (119 - message.length % 64) % 64
  message ++ 0x80 :: List.replicate zeros 0 ++ bigEndian 8 (8 * message.length)

def Registers.bytes (r : Registers) : Vector UInt8 32 :=
  let words := #v[r.a, r.b, r.c, r.d, r.e, r.f, r.g, r.h]
  Vector.ofFn fun position => (words[position.val / 4] >>> (24 - 8 * (position.val % 4).toUInt32)).toUInt8

def hash (message : Bytes) : Vector UInt8 32 :=
  let padded := words (pad message)
  ((blocks padded (padded.length / 16)).foldl compress initial).bytes

end Coverability.Sha256
