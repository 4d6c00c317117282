/-! The 32-bit murmur hash (third version, for 32-bit machines) of a byte string.

Bytes are taken four at a time as little-endian words; each word is mixed into the running hash,
then the one to three bytes left over, then the length, and a last mix spreads every bit.
-/

set_option autoImplicit false

namespace HashedFeatures.Hash.Murmur

def rotateLeft (x n : UInt32) : UInt32 :=
  (x <<< n) ||| (x >>> (32 - n))

def word (a b c d : UInt8) : UInt32 :=
  a.toUInt32 ||| (b.toUInt32 <<< 8) ||| (c.toUInt32 <<< 16) ||| (d.toUInt32 <<< 24)

def scramble (k : UInt32) : UInt32 :=
  rotateLeft (k * 0xcc9e2d51) 15 * 0x1b873593

def mixWord (h k : UInt32) : UInt32 :=
  rotateLeft (h ^^^ scramble k) 13 * 5 + 0xe6546b64

/-- Mix the bytes in; a rest shorter than a word only meets the scrambled word. -/
def absorb (h : UInt32) : List UInt8 → UInt32
  | a :: b :: c :: d :: rest => absorb (mixWord h (word a b c d)) rest
  | [a, b, c] => h ^^^ scramble (word a b c 0)
  | [a, b] => h ^^^ scramble (word a b 0 0)
  | [a] => h ^^^ scramble (word a 0 0 0)
  | [] => h

def finish (h : UInt32) : UInt32 :=
  let h := (h ^^^ (h >>> 16)) * 0x85ebca6b
  let h := (h ^^^ (h >>> 13)) * 0xc2b2ae35
  h ^^^ (h >>> 16)

def hash (data : List UInt8) (seed : UInt32) : UInt32 :=
  finish (absorb seed data ^^^ UInt32.ofNat data.length)

end HashedFeatures.Hash.Murmur
