/-!
# SHA-256

The digest of a byte string. The message is padded to whole blocks of sixteen
32-bit words; each block is expanded to a schedule of sixty-four words and
compressed into a state of eight words, whose last value is the digest.
-/

namespace GrammarSearch

/-- A digest: a number of 256 bits. -/
structure Digest where
  value : Nat
deriving DecidableEq, Inhabited

namespace Sha256

/-- The eight words a block is compressed into. -/
structure State where
  (a b c d e f g h : UInt32)

/-- The state before the first block. -/
def initial : State :=
  ⟨0x6a09e667, 0xbb67ae85, 0x3c6ef372, 0xa54ff53a, 0x510e527f, 0x9b05688c, 0x1f83d9ab,
    0x5be0cd19⟩

/-- The constants of the sixty-four rounds. -/
def roundConstants : Array UInt32 :=
  #[0x428a2f98, 0x71374491, 0xb5c0fbcf, 0xe9b5dba5, 0x3956c25b, 0x59f111f1, 0x923f82a4, 0xab1c5ed5,
    0xd807aa98, 0x12835b01, 0x243185be, 0x550c7dc3, 0x72be5d74, 0x80deb1fe, 0x9bdc06a7, 0xc19bf174,
    0xe49b69c1, 0xefbe4786, 0x0fc19dc6, 0x240ca1cc, 0x2de92c6f, 0x4a7484aa, 0x5cb0a9dc, 0x76f988da,
    0x983e5152, 0xa831c66d, 0xb00327c8, 0xbf597fc7, 0xc6e00bf3, 0xd5a79147, 0x06ca6351, 0x14292967,
    0x27b70a85, 0x2e1b2138, 0x4d2c6dfc, 0x53380d13, 0x650a7354, 0x766a0abb, 0x81c2c92e, 0x92722c85,
    0xa2bfe8a1, 0xa81a664b, 0xc24b8b70, 0xc76c51a3, 0xd192e819, 0xd6990624, 0xf40e3585, 0x106aa070,
    0x19a4c116, 0x1e376c08, 0x2748774c, 0x34b0bcb5, 0x391c0cb3, 0x4ed8aa4a, 0x5b9cca4f, 0x682e6ff3,
    0x748f82ee, 0x78a5636f, 0x84c87814, 0x8cc70208, 0x90befffa, 0xa4506ceb, 0xbef9a3f7, 0xc67178f2]

/-- Rotation to the right. -/
def rotate (x n : UInt32) : UInt32 :=
  (x >>> n) ||| (x <<< (32 - n))

/-- The word of the schedule that follows the words in `schedule`. -/
def nextWord (schedule : Array UInt32) : UInt32 :=
  let t := schedule.size
  let x := schedule.getD (t - 15) 0
  let y := schedule.getD (t - 2) 0
  let s0 := rotate x 7 ^^^ rotate x 18 ^^^ (x >>> 3)
  let s1 := rotate y 17 ^^^ rotate y 19 ^^^ (y >>> 10)
  schedule.getD (t - 16) 0 + s0 + schedule.getD (t - 7) 0 + s1

/-- A schedule with `count` further words. -/
def extend : Nat → Array UInt32 → Array UInt32
  | 0, schedule => schedule
  | count + 1, schedule => extend count (schedule.push (nextWord schedule))

/-- The rounds from round `t` on, of which `count` are left. -/
def rounds (schedule : Array UInt32) : Nat → Nat → (a b c d e f g h : UInt32) → State
  | 0, _, a, b, c, d, e, f, g, h => ⟨a, b, c, d, e, f, g, h⟩
  | count + 1, t, a, b, c, d, e, f, g, h =>
    let s1 := rotate e 6 ^^^ rotate e 11 ^^^ rotate e 25
    let choice := (e &&& f) ^^^ (~~~e &&& g)
    let t1 := h + s1 + choice + roundConstants.getD t 0 + schedule.getD t 0
    let s0 := rotate a 2 ^^^ rotate a 13 ^^^ rotate a 22
    let majority := (a &&& b) ^^^ (a &&& c) ^^^ (b &&& c)
    rounds schedule count (t + 1) (t1 + (s0 + majority)) a b c (d + t1) e f g

/-- The state after one more block. -/
def compress (s : State) (block : Array UInt32) : State :=
  let r := rounds (extend 48 block) 64 0 s.a s.b s.c s.d s.e s.f s.g s.h
  ⟨s.a + r.a, s.b + r.b, s.c + r.c, s.d + r.d, s.e + r.e, s.f + r.f, s.g + r.g, s.h + r.h⟩

/-- The byte of the padded message at a position: the message, a closing one bit, zeros, and
the length of the message in bits as a 64-bit number. -/
def paddedByte (message : ByteArray) (size position : Nat) : UInt8 :=
  if h : position < message.size then message[position]
  else if position = message.size then 0x80
  else if position + 8 < size then 0
  else ((message.size * 8) >>> (8 * (size - 1 - position))).toUInt8

/-- The length of the padded message in bytes, a multiple of sixty-four. -/
def paddedSize (message : ByteArray) : Nat :=
  (message.size + 8) / 64 * 64 + 64

/-- The word whose four bytes start at a position. -/
def paddedWord (message : ByteArray) (size position : Nat) : UInt32 :=
  let byte (i : Nat) : UInt32 := (paddedByte message size (position + i)).toUInt32
  (byte 0 <<< 24) ||| (byte 1 <<< 16) ||| (byte 2 <<< 8) ||| byte 3

/-- The words of the block at a position, after those in `words`. -/
def blockWords (message : ByteArray) (size : Nat) :
    (count position : Nat) → Array UInt32 → Array UInt32
  | 0, _, words => words
  | count + 1, position, words =>
    blockWords message size count (position + 4) (words.push (paddedWord message size position))

/-- The state after the blocks from a position on, of which `count` are left. -/
def blocks (message : ByteArray) (size : Nat) : (count position : Nat) → State → State
  | 0, _, s => s
  | count + 1, position, s =>
    blocks message size count (position + 64)
      (compress s (blockWords message size 16 position (Array.emptyWithCapacity 64)))

/-- The number whose 32-bit digits are the words of a state. -/
def State.toNat (s : State) : Nat :=
  [s.b, s.c, s.d, s.e, s.f, s.g, s.h].foldl (fun n word => n * 0x100000000 + word.toNat) s.a.toNat

end Sha256

/-- The SHA-256 digest of a message. -/
def sha256 (message : ByteArray) : Digest :=
  let size := Sha256.paddedSize message
  ⟨(Sha256.blocks message size (size / 64) 0 Sha256.initial).toNat⟩

/-- A digest as sixty-four hexadecimal digits. -/
def Digest.hex (d : Digest) : String :=
  let digits := Nat.toDigits 16 d.value
  String.ofList (List.replicate (64 - digits.length) '0' ++ digits)

end GrammarSearch
