import Mathlib.Data.List.Basic

/-!
# Words and texts

`lua-crypt.c` keeps a number of 64 bits in a text of eight bytes, the lowest byte first, and reads
it as two words of 32 bits (`read64`, `push64`); `read64_push64` says that it reads what it wrote.
`hmac64` and `hashkey` are computed here, and so is `randomkey`, from the numbers of `random()`.
-/

namespace SkynetHotfix.Crypt

abbrev Text : Type := List UInt8

inductive Fault
  | error (msg : String)
  /-- a byte outside a buffer is read -/
  | outside
deriving DecidableEq

def raise {α : Type} (msg : String) : Except Fault α := .error (.error msg)

/-- `x[0] | x[1]<<8 | x[2]<<16 | x[3]<<24`. -/
def word (x0 x1 x2 x3 : UInt8) : BitVec 32 :=
  x0.toBitVec.setWidth 32 ||| x1.toBitVec.setWidth 32 <<< 8 ||| x2.toBitVec.setWidth 32 <<< 16 |||
    x3.toBitVec.setWidth 32 <<< 24

/-- `n & 0xff` as a byte. -/
def byte {w : Nat} (n : BitVec w) : UInt8 := ⟨n.setWidth 8⟩

structure UInt32x2 where
  lo : BitVec 32
  hi : BitVec 32
deriving DecidableEq

/-- One of the numbers of `read64`. -/
def read64 (msg : String) : Text → Except Fault UInt32x2
  | [x0, x1, x2, x3, x4, x5, x6, x7] => .ok ⟨word x0 x1 x2 x3, word x4 x5 x6 x7⟩
  | _ => raise msg

def pushqword (r : UInt32x2) : Text :=
  [byte r.lo, byte (r.lo >>> 8), byte (r.lo >>> 16), byte (r.lo >>> 24),
    byte r.hi, byte (r.hi >>> 8), byte (r.hi >>> 16), byte (r.hi >>> 24)]

def push64 (r : BitVec 64) : Text :=
  [byte r, byte (r >>> 8), byte (r >>> 16), byte (r >>> 24),
    byte (r >>> 32), byte (r >>> 40), byte (r >>> 48), byte (r >>> 56)]

/-- `(uint64_t)x[0] | (uint64_t)x[1]<<32`. -/
def UInt32x2.toUInt64 (x : UInt32x2) : BitVec 64 := x.lo.setWidth 64 ||| x.hi.setWidth 64 <<< 32

/-- `random() & 0xff`, eight times. -/
def lrandomkey (tmp : Vector UInt8 8) : Text :=
  let x := tmp.toList.foldl (· ^^^ ·) 0
  if x = 0 then (tmp.set 0 (tmp[0] ||| 1)).toList else tmp.toList

def Hash (str : Text) : UInt32x2 :=
  str.foldl (fun h c => { lo := h.lo + (h.lo <<< 5 + c.toBitVec.setWidth 32)
                          hi := h.hi ^^^ (h.hi <<< 5 + c.toBitVec.setWidth 32 + h.hi >>> 2) })
    ⟨5381, 1315423911⟩

def lhashkey (key : Text) : Text := pushqword (Hash key)

def k : List (BitVec 32) :=
  [0xd76aa478, 0xe8c7b756, 0x242070db, 0xc1bdceee, 0xf57c0faf, 0x4787c62a, 0xa8304613,
    0xfd469501, 0x698098d8, 0x8b44f7af, 0xffff5bb1, 0x895cd7be, 0x6b901122, 0xfd987193,
    0xa679438e, 0x49b40821, 0xf61e2562, 0xc040b340, 0x265e5a51, 0xe9b6c7aa, 0xd62f105d,
    0x02441453, 0xd8a1e681, 0xe7d3fbc8, 0x21e1cde6, 0xc33707d6, 0xf4d50d87, 0x455a14ed,
    0xa9e3e905, 0xfcefa3f8, 0x676f02d9, 0x8d2a4c8a, 0xfffa3942, 0x8771f681, 0x6d9d6122,
    0xfde5380c, 0xa4beea44, 0x4bdecfa9, 0xf6bb4b60, 0xbebfbc70, 0x289b7ec6, 0xeaa127fa,
    0xd4ef3085, 0x04881d05, 0xd9d4d039, 0xe6db99e5, 0x1fa27cf8, 0xc4ac5665, 0xf4292244,
    0x432aff97, 0xab9423a7, 0xfc93a039, 0x655b59c3, 0x8f0ccc92, 0xffeff47d, 0x85845dd1,
    0x6fa87e4f, 0xfe2ce6e0, 0xa3014314, 0x4e0811a1, 0xf7537e82, 0xbd3af235, 0x2ad7d2bb,
    0xeb86d391]

def r : List Nat :=
  [7, 12, 17, 22, 7, 12, 17, 22, 7, 12, 17, 22, 7, 12, 17, 22,
    5, 9, 14, 20, 5, 9, 14, 20, 5, 9, 14, 20, 5, 9, 14, 20,
    4, 11, 16, 23, 4, 11, 16, 23, 4, 11, 16, 23, 4, 11, 16, 23,
    6, 10, 15, 21, 6, 10, 15, 21, 6, 10, 15, 21, 6, 10, 15, 21]

def LEFTROTATE (x : BitVec 32) (c : Nat) : BitVec 32 := x <<< c ||| x >>> (32 - c)

structure Digest where
  a : BitVec 32
  b : BitVec 32
  c : BitVec 32
  d : BitVec 32

/-- The turn `i` of the loop of `hmac`. -/
def hmacRound (w : List (BitVec 32)) (s : Digest) (i : Nat) : Digest :=
  let (f, g) :=
    if i < 16 then (s.b &&& s.c ||| ~~~s.b &&& s.d, i)
    else if i < 32 then (s.d &&& s.b ||| ~~~s.d &&& s.c, (5 * i + 1) % 16)
    else if i < 48 then (s.b ^^^ s.c ^^^ s.d, (3 * i + 5) % 16)
    else (s.c ^^^ (s.b ||| ~~~s.d), 7 * i % 16)
  { a := s.d
    b := s.b + LEFTROTATE (s.a + f + k.getD i 0 + w.getD g 0) (r.getD i 0)
    c := s.b
    d := s.c }

def hmac (x y : UInt32x2) : UInt32x2 :=
  let w := (List.replicate 4 [x.hi, x.lo, y.hi, y.lo]).flatten
  let s := (List.range 64).foldl (hmacRound w) ⟨0x67452301, 0xefcdab89, 0x98badcfe, 0x10325476⟩
  ⟨s.c ^^^ s.d, s.a ^^^ s.b⟩

def lhmac64 (x y : Text) : Except Fault Text := do
  let xx ← read64 "Invalid uint64 x" x
  let yy ← read64 "Invalid uint64 y" y
  return pushqword (hmac xx yy)

def lhmac_hash (key text : Text) : Except Fault Text := do
  let xx ← read64 "Invalid uint64 key" key
  return pushqword (hmac (Hash text) xx)

theorem read64_push64 (msg : String) (r : BitVec 64) :
    (UInt32x2.toUInt64 <$> read64 msg (push64 r)) = .ok r := by
  simp only [push64, read64, Except.map_ok, UInt32x2.toUInt64, word, byte]
  congr 1
  apply BitVec.eq_of_getLsbD_eq
  intro i hi
  simp only [BitVec.getLsbD_or, BitVec.getLsbD_shiftLeft, BitVec.getLsbD_setWidth,
    BitVec.getLsbD_ushiftRight]
  grind

theorem length_lrandomkey (tmp : Vector UInt8 8) : (lrandomkey tmp).length = 8 := by
  simp only [lrandomkey]
  split <;> simp

end SkynetHotfix.Crypt
