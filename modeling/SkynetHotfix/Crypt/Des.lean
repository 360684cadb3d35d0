import Mathlib.Data.Vector.Basic
import SkynetHotfix.Crypt.Basic
import SkynetHotfix.Lib.Feistel

/-!
# DES

`desencode` cuts a text into blocks of eight bytes, with `0x80` and zeros behind its end, and takes
each block through the initial permutation, 16 rounds and the final permutation; `desdecode` does
the same with the subkeys in the opposite order and takes off what was put behind the end. What one
makes of a text the other makes the text again (`ldesdecode_desencode`): the permutations undo each
other (`DES_FP_IP`, `DES_IP_FP`), and the rounds are those of two halves that are mixed in turns.

The subkeys are kept in pairs, one pair for each round. Texts are shorter than 2^31 bytes.
-/

namespace SkynetHotfix.Crypt

abbrev Block : Type := Vector UInt8 8

abbrev Halves32 : Type := BitVec 32 × BitVec 32

abbrev SubKeys : Type := List (BitVec 32 × BitVec 32)

def SB1 : List (BitVec 32) :=
  [0x01010400, 0x00000000, 0x00010000, 0x01010404, 0x01010004, 0x00010404, 0x00000004,
    0x00010000, 0x00000400, 0x01010400, 0x01010404, 0x00000400, 0x01000404, 0x01010004,
    0x01000000, 0x00000004, 0x00000404, 0x01000400, 0x01000400, 0x00010400, 0x00010400,
    0x01010000, 0x01010000, 0x01000404, 0x00010004, 0x01000004, 0x01000004, 0x00010004,
    0x00000000, 0x00000404, 0x00010404, 0x01000000, 0x00010000, 0x01010404, 0x00000004,
    0x01010000, 0x01010400, 0x01000000, 0x01000000, 0x00000400, 0x01010004, 0x00010000,
    0x00010400, 0x01000004, 0x00000400, 0x00000004, 0x01000404, 0x00010404, 0x01010404,
    0x00010004, 0x01010000, 0x01000404, 0x01000004, 0x00000404, 0x00010404, 0x01010400,
    0x00000404, 0x01000400, 0x01000400, 0x00000000, 0x00010004, 0x00010400, 0x00000000,
    0x01010004]

def SB2 : List (BitVec 32) :=
  [0x80108020, 0x80008000, 0x00008000, 0x00108020, 0x00100000, 0x00000020, 0x80100020,
    0x80008020, 0x80000020, 0x80108020, 0x80108000, 0x80000000, 0x80008000, 0x00100000,
    0x00000020, 0x80100020, 0x00108000, 0x00100020, 0x80008020, 0x00000000, 0x80000000,
    0x00008000, 0x00108020, 0x80100000, 0x00100020, 0x80000020, 0x00000000, 0x00108000,
    0x00008020, 0x80108000, 0x80100000, 0x00008020, 0x00000000, 0x00108020, 0x80100020,
    0x00100000, 0x80008020, 0x80100000, 0x80108000, 0x00008000, 0x80100000, 0x80008000,
    0x00000020, 0x80108020, 0x00108020, 0x00000020, 0x00008000, 0x80000000, 0x00008020,
    0x80108000, 0x00100000, 0x80000020, 0x00100020, 0x80008020, 0x80000020, 0x00100020,
    0x00108000, 0x00000000, 0x80008000, 0x00008020, 0x80000000, 0x80100020, 0x80108020,
    0x00108000]

def SB3 : List (BitVec 32) :=
  [0x00000208, 0x08020200, 0x00000000, 0x08020008, 0x08000200, 0x00000000, 0x00020208,
    0x08000200, 0x00020008, 0x08000008, 0x08000008, 0x00020000, 0x08020208, 0x00020008,
    0x08020000, 0x00000208, 0x08000000, 0x00000008, 0x08020200, 0x00000200, 0x00020200,
    0x08020000, 0x08020008, 0x00020208, 0x08000208, 0x00020200, 0x00020000, 0x08000208,
    0x00000008, 0x08020208, 0x00000200, 0x08000000, 0x08020200, 0x08000000, 0x00020008,
    0x00000208, 0x00020000, 0x08020200, 0x08000200, 0x00000000, 0x00000200, 0x00020008,
    0x08020208, 0x08000200, 0x08000008, 0x00000200, 0x00000000, 0x08020008, 0x08000208,
    0x00020000, 0x08000000, 0x08020208, 0x00000008, 0x00020208, 0x00020200, 0x08000008,
    0x08020000, 0x08000208, 0x00000208, 0x08020000, 0x00020208, 0x00000008, 0x08020008,
    0x00020200]

def SB4 : List (BitVec 32) :=
  [0x00802001, 0x00002081, 0x00002081, 0x00000080, 0x00802080, 0x00800081, 0x00800001,
    0x00002001, 0x00000000, 0x00802000, 0x00802000, 0x00802081, 0x00000081, 0x00000000,
    0x00800080, 0x00800001, 0x00000001, 0x00002000, 0x00800000, 0x00802001, 0x00000080,
    0x00800000, 0x00002001, 0x00002080, 0x00800081, 0x00000001, 0x00002080, 0x00800080,
    0x00002000, 0x00802080, 0x00802081, 0x00000081, 0x00800080, 0x00800001, 0x00802000,
    0x00802081, 0x00000081, 0x00000000, 0x00000000, 0x00802000, 0x00002080, 0x00800080,
    0x00800081, 0x00000001, 0x00802001, 0x00002081, 0x00002081, 0x00000080, 0x00802081,
    0x00000081, 0x00000001, 0x00002000, 0x00800001, 0x00002001, 0x00802080, 0x00800081,
    0x00002001, 0x00002080, 0x00800000, 0x00802001, 0x00000080, 0x00800000, 0x00002000,
    0x00802080]

def SB5 : List (BitVec 32) :=
  [0x00000100, 0x02080100, 0x02080000, 0x42000100, 0x00080000, 0x00000100, 0x40000000,
    0x02080000, 0x40080100, 0x00080000, 0x02000100, 0x40080100, 0x42000100, 0x42080000,
    0x00080100, 0x40000000, 0x02000000, 0x40080000, 0x40080000, 0x00000000, 0x40000100,
    0x42080100, 0x42080100, 0x02000100, 0x42080000, 0x40000100, 0x00000000, 0x42000000,
    0x02080100, 0x02000000, 0x42000000, 0x00080100, 0x00080000, 0x42000100, 0x00000100,
    0x02000000, 0x40000000, 0x02080000, 0x42000100, 0x40080100, 0x02000100, 0x40000000,
    0x42080000, 0x02080100, 0x40080100, 0x00000100, 0x02000000, 0x42080000, 0x42080100,
    0x00080100, 0x42000000, 0x42080100, 0x02080000, 0x00000000, 0x40080000, 0x42000000,
    0x00080100, 0x02000100, 0x40000100, 0x00080000, 0x00000000, 0x40080000, 0x02080100,
    0x40000100]

def SB6 : List (BitVec 32) :=
  [0x20000010, 0x20400000, 0x00004000, 0x20404010, 0x20400000, 0x00000010, 0x20404010,
    0x00400000, 0x20004000, 0x00404010, 0x00400000, 0x20000010, 0x00400010, 0x20004000,
    0x20000000, 0x00004010, 0x00000000, 0x00400010, 0x20004010, 0x00004000, 0x00404000,
    0x20004010, 0x00000010, 0x20400010, 0x20400010, 0x00000000, 0x00404010, 0x20404000,
    0x00004010, 0x00404000, 0x20404000, 0x20000000, 0x20004000, 0x00000010, 0x20400010,
    0x00404000, 0x20404010, 0x00400000, 0x00004010, 0x20000010, 0x00400000, 0x20004000,
    0x20000000, 0x00004010, 0x20000010, 0x20404010, 0x00404000, 0x20400000, 0x00404010,
    0x20404000, 0x00000000, 0x20400010, 0x00000010, 0x00004000, 0x20400000, 0x00404010,
    0x00004000, 0x00400010, 0x20004010, 0x00000000, 0x20404000, 0x20000000, 0x00400010,
    0x20004010]

def SB7 : List (BitVec 32) :=
  [0x00200000, 0x04200002, 0x04000802, 0x00000000, 0x00000800, 0x04000802, 0x00200802,
    0x04200800, 0x04200802, 0x00200000, 0x00000000, 0x04000002, 0x00000002, 0x04000000,
    0x04200002, 0x00000802, 0x04000800, 0x00200802, 0x00200002, 0x04000800, 0x04000002,
    0x04200000, 0x04200800, 0x00200002, 0x04200000, 0x00000800, 0x00000802, 0x04200802,
    0x00200800, 0x00000002, 0x04000000, 0x00200800, 0x04000000, 0x00200800, 0x00200000,
    0x04000802, 0x04000802, 0x04200002, 0x04200002, 0x00000002, 0x00200002, 0x04000000,
    0x04000800, 0x00200000, 0x04200800, 0x00000802, 0x00200802, 0x04200800, 0x00000802,
    0x04000002, 0x04200802, 0x04200000, 0x00200800, 0x00000000, 0x00000002, 0x04200802,
    0x00000000, 0x00200802, 0x04200000, 0x00000800, 0x04000002, 0x04000800, 0x00000800,
    0x00200002]

def SB8 : List (BitVec 32) :=
  [0x10001040, 0x00001000, 0x00040000, 0x10041040, 0x10000000, 0x10001040, 0x00000040,
    0x10000000, 0x00040040, 0x10040000, 0x10041040, 0x00041000, 0x10041000, 0x00041040,
    0x00001000, 0x00000040, 0x10040000, 0x10000040, 0x10001000, 0x00001040, 0x00041000,
    0x00040040, 0x10040040, 0x10041000, 0x00001040, 0x00000000, 0x00000000, 0x10040040,
    0x10000040, 0x10001000, 0x00041040, 0x00040000, 0x00041040, 0x00040000, 0x10041000,
    0x00001000, 0x00000040, 0x10040040, 0x00001000, 0x00041040, 0x10001000, 0x00000040,
    0x10000040, 0x10040000, 0x10040040, 0x10000000, 0x00040000, 0x10001040, 0x00000000,
    0x10041040, 0x00040040, 0x10000040, 0x10040000, 0x10001000, 0x10001040, 0x00000000,
    0x10041040, 0x00041000, 0x00041000, 0x00001040, 0x00001040, 0x00040040, 0x10000000,
    0x10041000]

def LHs : List (BitVec 32) :=
  [0x00000000, 0x00000001, 0x00000100, 0x00000101, 0x00010000, 0x00010001, 0x00010100,
    0x00010101, 0x01000000, 0x01000001, 0x01000100, 0x01000101, 0x01010000, 0x01010001,
    0x01010100, 0x01010101]

def RHs : List (BitVec 32) :=
  [0x00000000, 0x01000000, 0x00010000, 0x01010000, 0x00000100, 0x01000100, 0x00010100,
    0x01010100, 0x00000001, 0x01000001, 0x00010001, 0x01010001, 0x00000101, 0x01000101,
    0x00010101, 0x01010101]

def GET_UINT32 (b : Block) (i : Fin 5) : BitVec 32 :=
  b[i].toBitVec.setWidth 32 <<< 24 ||| b[i.val + 1].toBitVec.setWidth 32 <<< 16 |||
    b[i.val + 2].toBitVec.setWidth 32 <<< 8 ||| b[i.val + 3].toBitVec.setWidth 32

def PUT_UINT32 (n : BitVec 32) (b : Block) (i : Fin 5) : Block :=
  (((b.set i (byte (n >>> 24))).set (i.val + 1) (byte (n >>> 16))).set (i.val + 2)
    (byte (n >>> 8))).set (i.val + 3) (byte n)

/-- `T = ((X >> k) ^ Y) & m; Y ^= T; X ^= (T << k);`. -/
def swapBits (k : Nat) (m : BitVec 32) (p : Halves32) : Halves32 :=
  let T := (p.1 >>> k ^^^ p.2) &&& m
  (p.1 ^^^ T <<< k, p.2 ^^^ T)

def DES_IP (X Y : BitVec 32) : Halves32 :=
  let (X, Y) := swapBits 4 0x0F0F0F0F (X, Y)
  let (X, Y) := swapBits 16 0x0000FFFF (X, Y)
  let (Y, X) := swapBits 2 0x33333333 (Y, X)
  let (Y, X) := swapBits 8 0x00FF00FF (Y, X)
  let Y := Y <<< 1 ||| Y >>> 31
  let (X, Y) := swapBits 0 0xAAAAAAAA (X, Y)
  let X := X <<< 1 ||| X >>> 31
  (X, Y)

def DES_FP (X Y : BitVec 32) : Halves32 :=
  let X := X <<< 31 ||| X >>> 1
  let (X, Y) := swapBits 0 0xAAAAAAAA (X, Y)
  let Y := Y <<< 31 ||| Y >>> 1
  let (Y, X) := swapBits 8 0x00FF00FF (Y, X)
  let (Y, X) := swapBits 2 0x33333333 (Y, X)
  let (X, Y) := swapBits 16 0x0000FFFF (X, Y)
  swapBits 4 0x0F0F0F0F (X, Y)

def SB (table : List (BitVec 32)) (T : BitVec 32) : BitVec 32 := table.getD (T &&& 0x3F).toNat 0

/-- What a round mixes into `Y`. -/
def desMix (SK : BitVec 32 × BitVec 32) (X : BitVec 32) : BitVec 32 :=
  let T := SK.1 ^^^ X
  let Y := SB SB8 T ^^^ SB SB6 (T >>> 8) ^^^ SB SB4 (T >>> 16) ^^^ SB SB2 (T >>> 24)
  let T := SK.2 ^^^ (X <<< 28 ||| X >>> 4)
  Y ^^^ (SB SB7 T ^^^ SB SB5 (T >>> 8) ^^^ SB SB3 (T >>> 16) ^^^ SB SB1 (T >>> 24))

/-- The new `Y`. -/
def DES_ROUND (SK : BitVec 32 × BitVec 32) (X Y : BitVec 32) : BitVec 32 := Y ^^^ desMix SK X

/-- `DES_ROUND(Y, X); DES_ROUND(X, Y);` as long as there are subkeys. -/
def desRounds : SubKeys → BitVec 32 → BitVec 32 → Halves32
  | SK0 :: SK1 :: SK, X, Y =>
    let X := DES_ROUND SK0 Y X
    let Y := DES_ROUND SK1 X Y
    desRounds SK X Y
  | _, X, Y => (X, Y)

def LH (X : BitVec 32) (i : Nat) : BitVec 32 := LHs.getD (X >>> i &&& 0xF).toNat 0

def RH (Y : BitVec 32) (i : Nat) : BitVec 32 := RHs.getD (Y >>> i &&& 0xF).toNat 0

def subkey (X Y : BitVec 32) : BitVec 32 × BitVec 32 :=
  (X <<< 4 &&& 0x24000000 ||| X <<< 28 &&& 0x10000000 |||
      X <<< 14 &&& 0x08000000 ||| X <<< 18 &&& 0x02080000 |||
      X <<< 6 &&& 0x01000000 ||| X <<< 9 &&& 0x00200000 |||
      X >>> 1 &&& 0x00100000 ||| X <<< 10 &&& 0x00040000 |||
      X <<< 2 &&& 0x00020000 ||| X >>> 10 &&& 0x00010000 |||
      Y >>> 13 &&& 0x00002000 ||| Y >>> 4 &&& 0x00001000 |||
      Y <<< 6 &&& 0x00000800 ||| Y >>> 1 &&& 0x00000400 |||
      Y >>> 14 &&& 0x00000200 ||| Y &&& 0x00000100 |||
      Y >>> 5 &&& 0x00000020 ||| Y >>> 10 &&& 0x00000010 |||
      Y >>> 3 &&& 0x00000008 ||| Y >>> 18 &&& 0x00000004 |||
      Y >>> 26 &&& 0x00000002 ||| Y >>> 24 &&& 0x00000001,
    X <<< 15 &&& 0x20000000 ||| X <<< 17 &&& 0x10000000 |||
      X <<< 10 &&& 0x08000000 ||| X <<< 22 &&& 0x04000000 |||
      X >>> 2 &&& 0x02000000 ||| X <<< 1 &&& 0x01000000 |||
      X <<< 16 &&& 0x00200000 ||| X <<< 11 &&& 0x00100000 |||
      X <<< 3 &&& 0x00080000 ||| X >>> 6 &&& 0x00040000 |||
      X <<< 15 &&& 0x00020000 ||| X >>> 4 &&& 0x00010000 |||
      Y >>> 2 &&& 0x00002000 ||| Y <<< 8 &&& 0x00001000 |||
      Y >>> 14 &&& 0x00000808 ||| Y >>> 9 &&& 0x00000400 |||
      Y &&& 0x00000200 ||| Y <<< 7 &&& 0x00000100 |||
      Y >>> 7 &&& 0x00000020 ||| Y >>> 3 &&& 0x00000011 |||
      Y <<< 2 &&& 0x00000004 ||| Y >>> 21 &&& 0x00000002)

/-- The rest of the loop over the subkeys, `i` being what is left to do. -/
def subkeys : List Nat → BitVec 32 → BitVec 32 → SubKeys
  | [], _, _ => []
  | i :: is, X, Y =>
    let (X, Y) :=
      if i < 2 ∨ i = 8 ∨ i = 15 then
        ((X <<< 1 ||| X >>> 27) &&& 0x0FFFFFFF, (Y <<< 1 ||| Y >>> 27) &&& 0x0FFFFFFF)
      else ((X <<< 2 ||| X >>> 26) &&& 0x0FFFFFFF, (Y <<< 2 ||| Y >>> 26) &&& 0x0FFFFFFF)
    subkey X Y :: subkeys is X Y

def des_main_ks (key : Block) : SubKeys :=
  let X := GET_UINT32 key 0
  let Y := GET_UINT32 key 4
  let (Y, X) := swapBits 4 0x0F0F0F0F (Y, X)
  let (Y, X) := swapBits 0 0x10101010 (Y, X)
  let X := LH X 0 <<< 3 ||| LH X 8 <<< 2 ||| LH X 16 <<< 1 ||| LH X 24 |||
    LH X 5 <<< 7 ||| LH X 13 <<< 6 ||| LH X 21 <<< 5 ||| LH X 29 <<< 4
  let Y := RH Y 1 <<< 3 ||| RH Y 9 <<< 2 ||| RH Y 17 <<< 1 ||| RH Y 25 |||
    RH Y 4 <<< 7 ||| RH Y 12 <<< 6 ||| RH Y 20 <<< 5 ||| RH Y 28 <<< 4
  subkeys (List.range 16) (X &&& 0x0FFFFFFF) (Y &&& 0x0FFFFFFF)

def des_crypt (SK : SubKeys) (input : Block) : Block :=
  let (X, Y) := DES_IP (GET_UINT32 input 0) (GET_UINT32 input 4)
  let (X, Y) := desRounds SK X Y
  let (Y, X) := DES_FP Y X
  PUT_UINT32 X (PUT_UINT32 Y (.replicate 8 0) 0) 4

def des_key : Text → Except Fault SubKeys
  | [k0, k1, k2, k3, k4, k5, k6, k7] => .ok (des_main_ks #v[k0, k1, k2, k3, k4, k5, k6, k7])
  | key => raise s!"Invalid key size {key.length}, need 8 bytes"

/-- The last block, of the bytes that are left over. -/
def tail (text : Text) : Block :=
  .ofFn fun j => if j < text.length then text.getD j 0 else if j = text.length then 0x80 else 0

def desencode (SK : SubKeys) : Text → Text
  | t0 :: t1 :: t2 :: t3 :: t4 :: t5 :: t6 :: t7 :: text =>
    (des_crypt SK #v[t0, t1, t2, t3, t4, t5, t6, t7]).toList ++ desencode SK text
  | text => (des_crypt SK (tail text)).toList

def ldesencode (key text : Text) : Except Fault Text := do
  let SK ← des_key key
  return desencode SK text

def desdecode (SK : SubKeys) : Text → Text
  | t0 :: t1 :: t2 :: t3 :: t4 :: t5 :: t6 :: t7 :: text =>
    (des_crypt SK #v[t0, t1, t2, t3, t4, t5, t6, t7]).toList ++ desdecode SK text
  | _ => []

/-- The loop that counts the padding, from the end of the buffer; `n` is how often it may turn. -/
def unpad : (n : Nat) → (buffer : Text) → (padding : Nat) → Except Fault Nat
  | 0, _, padding => .ok padding
  | _ + 1, [], _ => .error .outside
  | n + 1, b :: buffer, padding =>
    if b = 0 then unpad n buffer (padding + 1)
    else if b = 0x80 then .ok padding
    else raise "Invalid des crypt text"

def ldesdecode (key text : Text) : Except Fault Text := do
  let ESK ← des_key key
  let SK := ESK.reverse
  if text.length % 8 ≠ 0 ∨ text.length = 0 then
    raise s!"Invalid des crypt text length {text.length}"
  let buffer := desdecode SK text
  -- `i >= textsz-8` is a comparison of unsigned numbers: of a single block it also holds of -1
  let padding ← unpad (if text.length = 8 then 9 else 8) buffer.reverse 1
  if padding > 8 then raise "Invalid des crypt text"
  return buffer.take (text.length - padding)

/-! ## The permutations -/

theorem word_bytes (n : BitVec 32) :
    ((n >>> 24).setWidth 8).setWidth 32 <<< 24 ||| ((n >>> 16).setWidth 8).setWidth 32 <<< 16 |||
      ((n >>> 8).setWidth 8).setWidth 32 <<< 8 ||| (n.setWidth 8).setWidth 32 = n := by
  apply BitVec.eq_of_getLsbD_eq
  intro i hi
  simp only [BitVec.getLsbD_or, BitVec.getLsbD_shiftLeft, BitVec.getLsbD_setWidth,
    BitVec.getLsbD_ushiftRight]
  grind

theorem bytes_word {a b c d : BitVec 8} {n : BitVec 32} (hn : n = a.setWidth 32 <<< 24 |||
    b.setWidth 32 <<< 16 ||| c.setWidth 32 <<< 8 ||| d.setWidth 32) :
    (n >>> 24).setWidth 8 = a ∧ (n >>> 16).setWidth 8 = b ∧ (n >>> 8).setWidth 8 = c ∧
      n.setWidth 8 = d := by
  subst hn
  refine ⟨?_, ?_, ?_, ?_⟩ <;> apply BitVec.eq_of_getLsbD_eq <;> intro i hi <;>
    simp only [BitVec.getLsbD_or, BitVec.getLsbD_shiftLeft, BitVec.getLsbD_setWidth,
      BitVec.getLsbD_ushiftRight] <;>
    grind

theorem GET_UINT32_PUT_UINT32 (X Y : BitVec 32) (b : Block) :
    GET_UINT32 (PUT_UINT32 X (PUT_UINT32 Y b 0) 4) 0 = Y ∧
      GET_UINT32 (PUT_UINT32 X (PUT_UINT32 Y b 0) 4) 4 = X := by
  constructor
  · simpa [GET_UINT32, PUT_UINT32, byte] using word_bytes Y
  · simpa [GET_UINT32, PUT_UINT32, byte] using word_bytes X

theorem PUT_UINT32_GET_UINT32 (input b : Block) :
    PUT_UINT32 (GET_UINT32 input 4) (PUT_UINT32 (GET_UINT32 input 0) b 0) 4 = input := by
  obtain ⟨h0, h1, h2, h3⟩ := bytes_word (n := GET_UINT32 input 0) rfl
  obtain ⟨h4, h5, h6, h7⟩ := bytes_word (n := GET_UINT32 input 4) rfl
  apply Vector.ext
  intro i hi
  rcases (by omega : i = 0 ∨ i = 1 ∨ i = 2 ∨ i = 3 ∨ i = 4 ∨ i = 5 ∨ i = 6 ∨ i = 7) with
    rfl | rfl | rfl | rfl | rfl | rfl | rfl | rfl <;>
    simp [PUT_UINT32, byte, *]

theorem swapBits_swapBits {k : Nat} {m : BitVec 32} (hm : m <<< k >>> k = m) (p : Halves32) :
    swapBits k m (swapBits k m p) = p := by
  generalize hT : (p.1 >>> k ^^^ p.2) &&& m = T
  have hback : T <<< k >>> k = T := by
    rw [← hT, BitVec.shiftLeft_and_distrib, BitVec.ushiftRight_and_distrib, hm]
    apply BitVec.eq_of_getLsbD_eq
    intro i hi
    have hmi := congrArg (·.getLsbD i) hm
    simp only [BitVec.getLsbD_and, BitVec.getLsbD_shiftLeft, BitVec.getLsbD_ushiftRight] at hmi ⊢
    grind
  have hT' : ((p.1 ^^^ T <<< k) >>> k ^^^ (p.2 ^^^ T)) &&& m = T := by
    rw [BitVec.ushiftRight_xor_distrib, hback, ← hT]
    apply BitVec.eq_of_getLsbD_eq
    intro i hi
    simp only [BitVec.getLsbD_and, BitVec.getLsbD_xor]
    grind
  simp only [swapBits, hT, hT']
  simp only [BitVec.xor_assoc, BitVec.xor_self, BitVec.xor_zero]

theorem rotate_left_right (x : BitVec 32) :
    (x <<< 31 ||| x >>> 1) <<< 1 ||| (x <<< 31 ||| x >>> 1) >>> 31 = x := by
  apply BitVec.eq_of_getLsbD_eq
  intro i hi
  simp only [BitVec.getLsbD_or, BitVec.getLsbD_shiftLeft, BitVec.getLsbD_ushiftRight]
  grind

theorem rotate_right_left (x : BitVec 32) :
    (x <<< 1 ||| x >>> 31) <<< 31 ||| (x <<< 1 ||| x >>> 31) >>> 1 = x := by
  apply BitVec.eq_of_getLsbD_eq
  intro i hi
  simp only [BitVec.getLsbD_or, BitVec.getLsbD_shiftLeft, BitVec.getLsbD_ushiftRight]
  grind

theorem DES_FP_IP (X Y : BitVec 32) : DES_FP (DES_IP X Y).1 (DES_IP X Y).2 = (X, Y) := by
  simp only [DES_IP, DES_FP, rotate_right_left]
  simp (disch := decide) only [swapBits_swapBits, Prod.mk.eta, rotate_right_left]

theorem DES_IP_FP (X Y : BitVec 32) : DES_IP (DES_FP X Y).1 (DES_FP X Y).2 = (X, Y) := by
  simp only [DES_IP, DES_FP]
  simp (disch := decide) only [swapBits_swapBits, Prod.mk.eta, rotate_left_right]

/-! ## The rounds -/

theorem desRounds_eq {SK : SubKeys} (hSK : SK.length % 2 = 0) (X Y : BitVec 32) :
    desRounds SK X Y = Halves.rounds (· ^^^ ·) (SK.map desMix) (X, Y) := by
  fun_induction desRounds SK X Y with
  | case1 SK0 SK1 SK X Y X' Y' ih =>
    have hlen : SK.length % 2 = 0 := by simp at hSK; omega
    rw [ih hlen]
    rfl
  | case2 SK X Y hne =>
    have hnil : SK = [] := by
      rcases SK with _ | ⟨SK0, _ | ⟨SK1, SK⟩⟩
      · rfl
      · simp at hSK
      · exact absurd rfl (hne SK0 SK1 SK)
    subst hnil
    rfl

theorem desRounds_reverse {SK : SubKeys} (hSK : SK.length % 2 = 0) (X Y : BitVec 32) :
    desRounds SK.reverse (desRounds SK X Y).2 (desRounds SK X Y).1 = (Y, X) := by
  rw [desRounds_eq hSK, desRounds_eq (by simpa using hSK), List.map_reverse]
  apply Halves.rounds_reverse
  intro x y
  rw [BitVec.xor_assoc, BitVec.xor_self, BitVec.xor_zero]

theorem DES_IP_des_crypt (SK : SubKeys) (input : Block) {X Y : BitVec 32}
    (hin : DES_IP (GET_UINT32 input 0) (GET_UINT32 input 4) = (X, Y)) :
    DES_IP (GET_UINT32 (des_crypt SK input) 0) (GET_UINT32 (des_crypt SK input) 4) =
      ((desRounds SK X Y).2, (desRounds SK X Y).1) := by
  simp only [des_crypt, hin, GET_UINT32_PUT_UINT32]
  exact DES_IP_FP _ _

theorem des_crypt_reverse {SK : SubKeys} (hSK : SK.length % 2 = 0) (input : Block) :
    des_crypt SK.reverse (des_crypt SK input) = input := by
  generalize hin : DES_IP (GET_UINT32 input 0) (GET_UINT32 input 4) = p
  obtain ⟨X, Y⟩ := p
  have hfp : DES_FP X Y = (GET_UINT32 input 0, GET_UINT32 input 4) := by
    rw [← DES_FP_IP (GET_UINT32 input 0) (GET_UINT32 input 4), hin]
  rw [des_crypt, DES_IP_des_crypt SK input hin]
  simp only [desRounds_reverse hSK, hfp]
  exact PUT_UINT32_GET_UINT32 input _

theorem length_subkeys (is : List Nat) (X Y : BitVec 32) :
    (subkeys is X Y).length = is.length := by
  induction is generalizing X Y with
  | nil => rfl
  | cons i is ih => simp [subkeys, ih]

theorem length_des_key {key : Text} {SK : SubKeys} (h : des_key key = .ok SK) :
    SK.length = 16 := by
  unfold des_key at h
  split at h
  · obtain rfl := Except.ok.inj h
    simp [des_main_ks, length_subkeys]
  · cases h

/-! ## The texts -/

/-- What is put behind the end of a text of `n` bytes. -/
def padding (n : Nat) : Text := 0x80 :: List.replicate (7 - n % 8) 0

theorem length_lt_eight : ∀ {text : Text}, (∀ t0 t1 t2 t3 t4 t5 t6 t7 rest,
    text = t0 :: t1 :: t2 :: t3 :: t4 :: t5 :: t6 :: t7 :: rest → False) → text.length < 8
  | [], _ | [_], _ | [_, _], _ | [_, _, _], _ | [_, _, _, _], _ | [_, _, _, _, _], _
  | [_, _, _, _, _, _], _ | [_, _, _, _, _, _, _], _ => by simp
  | _ :: _ :: _ :: _ :: _ :: _ :: _ :: _ :: _, hne => (hne _ _ _ _ _ _ _ _ _ rfl).elim

theorem tail_eq {text : Text} (h : text.length < 8) :
    (tail text).toList = text ++ padding text.length := by
  apply List.ext_getElem
  · simp [padding]
    omega
  intro j hj _
  simp only [tail, padding, Vector.toList_ofFn, List.getElem_ofFn, List.getElem_append]
  by_cases hlt : j < text.length
  · simp [hlt]
  · rw [if_neg hlt, dif_neg hlt, List.getElem_cons]
    by_cases heq : j = text.length
    · simp [heq]
    · rw [if_neg heq, dif_neg (by omega), List.getElem_replicate]

theorem desdecode_append (SK : SubKeys) (v : Block) (rest : Text) :
    desdecode SK (v.toList ++ rest) = (des_crypt SK v).toList ++ desdecode SK rest := by
  obtain ⟨⟨l⟩, hl⟩ := v
  match l, hl with
  | [t0, t1, t2, t3, t4, t5, t6, t7], _ => rfl

theorem desdecode_blocks {SK : SubKeys} (hSK : SK.length % 2 = 0) (text : Text) :
    desdecode SK.reverse (desencode SK text) = text ++ padding text.length := by
  fun_induction desencode SK text with
  | case1 t0 t1 t2 t3 t4 t5 t6 t7 text ih =>
    rw [desdecode_append, des_crypt_reverse hSK, ih]
    have hmod : (text.length + 8) % 8 = text.length % 8 := by omega
    simp [padding, hmod]
  | case2 text hne =>
    have hlast := desdecode_append SK.reverse (des_crypt SK (tail text)) []
    rw [List.append_nil] at hlast
    rw [hlast, des_crypt_reverse hSK, tail_eq (length_lt_eight hne)]
    simp [desdecode]

theorem length_desencode (SK : SubKeys) (text : Text) :
    (desencode SK text).length = text.length + (8 - text.length % 8) := by
  fun_induction desencode SK text with
  | case1 t0 t1 t2 t3 t4 t5 t6 t7 text ih =>
    simp [ih]
    omega
  | case2 text hne =>
    have hlt := length_lt_eight hne
    simp
    omega

theorem unpad_padding (text : Text) {n m : Nat} (h : m < n) (p : Nat) :
    unpad n (List.replicate m 0 ++ 0x80 :: text) p = .ok (p + m) := by
  obtain ⟨n, rfl⟩ : ∃ n', n = n' + 1 := ⟨n - 1, by omega⟩
  induction m generalizing n p with
  | zero => rfl
  | succ m ih =>
    obtain ⟨n, rfl⟩ : ∃ n', n = n' + 1 := ⟨n - 1, by omega⟩
    show unpad (n + 1) (List.replicate m 0 ++ 0x80 :: text) (p + 1) = .ok (p + (m + 1))
    rw [ih (p + 1) n (by omega), Nat.add_right_comm, Nat.add_assoc]

theorem ldesdecode_desencode {key : Text} {SK : SubKeys} (hSK : des_key key = .ok SK)
    (text : Text) : ldesdecode key (desencode SK text) = .ok text := by
  have hlen : SK.length % 2 = 0 := by rw [length_des_key hSK]
  have hcipher := length_desencode SK text
  have hpad : (text ++ padding text.length).reverse =
      List.replicate (7 - text.length % 8) 0 ++ 0x80 :: text.reverse := by
    simp [padding]
  have hunpad : unpad (if (desencode SK text).length = 8 then 9 else 8)
      (desdecode SK.reverse (desencode SK text)).reverse 1 = .ok (8 - text.length % 8) := by
    rw [desdecode_blocks hlen, hpad, unpad_padding _ (by split <;> omega)]
    congr 1
    omega
  rw [ldesdecode, hSK]
  show (if _ then _ else _) = _
  rw [if_neg (by omega)]
  show unpad _ _ _ >>= _ = _
  rw [hunpad]
  show (if _ then _ else _) = _
  rw [if_neg (by omega)]
  show Except.ok _ = _
  rw [desdecode_blocks hlen, hcipher, Nat.add_sub_cancel, List.take_left]

theorem exists_des_key {key : Text} (h : key.length = 8) : ∃ SK, des_key key = .ok SK := by
  match key, h with
  | [k0, k1, k2, k3, k4, k5, k6, k7], _ => exact ⟨_, rfl⟩

/-- What `desencode` makes of a text `desdecode` makes the text again. -/
theorem desdecode_desencode (key text : Text) (hkey : key.length = 8) :
    (ldesencode key text >>= ldesdecode key) = .ok text := by
  obtain ⟨SK, hSK⟩ := exists_des_key hkey
  rw [ldesencode, hSK]
  exact ldesdecode_desencode hSK text

theorem desdecode_desencode_sample :
    (ldesencode [1, 2, 3, 4, 5, 6, 7, 8] [104, 101, 108, 108, 111] >>=
      ldesdecode [1, 2, 3, 4, 5, 6, 7, 8]) = .ok [104, 101, 108, 108, 111] :=
  desdecode_desencode _ _ rfl

end SkynetHotfix.Crypt
