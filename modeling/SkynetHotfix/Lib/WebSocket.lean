import Mathlib.Algebra.Group.Int.Defs
import Mathlib.Algebra.GroupWithZero.Nat
import Mathlib.Data.List.OfFn

/-!
# WebSocket frames

The format of a frame on the wire: two bytes with flags, opcode and length, a
longer length in two or eight bytes, high bytes first (`toBE`), the masking key
and the payload, masked with the key. Masking twice gives the payload back
(`mask_mask`), and it may be done piece by piece (`mask_append`).
-/

namespace WebSocket

/-! ## Numbers with the high bytes first -/

def toBE : Nat → Nat → List UInt8
  | 0, _ => []
  | k + 1, n => toBE k (n / 256) ++ [UInt8.ofNat n]

def ofBE (bs : List UInt8) : Nat := bs.foldl (fun n b => n * 256 + b.toNat) 0

@[simp] theorem length_toBE (k n : Nat) : (toBE k n).length = k := by
  induction k generalizing n with
  | zero => rfl
  | succ k ih => rw [toBE, List.length_append, ih, List.length_singleton]

theorem ofBE_toBE {k n : Nat} (h : n < 256 ^ k) : ofBE (toBE k n) = n := by
  induction k generalizing n with
  | zero =>
    rw [Nat.pow_zero] at h
    rw [Nat.lt_one_iff.mp h]
    rfl
  | succ k ih =>
    have hdiv : n / 256 < 256 ^ k := Nat.div_lt_of_lt_mul (by rwa [Nat.pow_succ'] at h)
    have hih : (toBE k (n / 256)).foldl (fun n b => n * 256 + b.toNat) 0 = n / 256 := ih hdiv
    rw [ofBE, toBE, List.foldl_append, hih, List.foldl_cons, List.foldl_nil, UInt8.toNat_ofNat']
    omega

/-! ## Masks -/

abbrev Key := Fin 4 → UInt8

/-- Bytes at `i` and on in a payload, masked. -/
def mask (key : Key) : Nat → List UInt8 → List UInt8
  | _, [] => []
  | i, b :: bs => (b ^^^ key (Fin.ofNat 4 i)) :: mask key (i + 1) bs

@[simp] theorem length_mask (key : Key) (i : Nat) (bs : List UInt8) :
    (mask key i bs).length = bs.length := by
  induction bs generalizing i with
  | nil => rfl
  | cons b bs ih => rw [mask, List.length_cons, List.length_cons, ih]

@[simp] theorem mask_mask (key : Key) (i : Nat) (bs : List UInt8) :
    mask key i (mask key i bs) = bs := by
  induction bs generalizing i with
  | nil => rfl
  | cons b bs ih => rw [mask, mask, ih, UInt8.xor_assoc, UInt8.xor_self, UInt8.xor_zero]

theorem mask_append (key : Key) (i : Nat) (a b : List UInt8) :
    mask key i (a ++ b) = mask key i a ++ mask key (i + a.length) b := by
  induction a generalizing i with
  | nil => rfl
  | cons x a ih =>
    rw [List.cons_append, mask, mask, ih, List.length_cons, List.cons_append, Nat.add_right_comm,
      Nat.add_assoc]

/-! ## Frames -/

/-- How a length is written. -/
inductive LengthForm
  | bits7
  | bits16
  | bits64
deriving DecidableEq

namespace LengthForm

/-- Lengths from here on do not fit. -/
def bound : LengthForm → Nat
  | bits7 => 126
  | bits16 => 2 ^ 16
  | bits64 => 2 ^ 63

/-- The seven bits of the second byte. -/
def code (n : Nat) : LengthForm → Nat
  | bits7 => n
  | bits16 => 126
  | bits64 => 127

/-- The bytes after the second. -/
def extended (n : Nat) : LengthForm → List UInt8
  | bits7 => []
  | bits16 => toBE 2 n
  | bits64 => toBE 8 n

theorem code_lt {n : Nat} {form : LengthForm} (h : n < form.bound) : form.code n < 128 := by
  cases form with
  | bits7 => exact Nat.lt_trans h (by decide)
  | bits16 => exact (by decide : 126 < 128)
  | bits64 => exact (by decide : 127 < 128)

end LengthForm

/-- A number stands for an opcode. -/
instance neZero_opcodes : NeZero 16 := ⟨by decide⟩

/-- A frame without extensions. -/
structure Frame where
  fin : Bool
  opcode : Fin 16
  form : LengthForm
  key : Option Key
  payload : List UInt8
  fits : payload.length < form.bound

/-- The first byte. -/
def flags (fin : Bool) (opcode : Fin 16) : UInt8 :=
  UInt8.ofNat ((if fin then 128 else 0) + opcode)

/-- The second byte. -/
def lengthByte (masked : Bool) (code : Nat) : UInt8 :=
  UInt8.ofNat ((if masked then 128 else 0) + code)

theorem flags_fin : ∀ (fin : Bool) (opcode : Fin 16),
    (flags fin opcode &&& 0x80 != 0) = fin := by decide

theorem flags_reserved : ∀ (fin : Bool) (opcode : Fin 16),
    (flags fin opcode &&& 0x70 != 0) = false := by decide

theorem flags_opcode : ∀ (fin : Bool) (opcode : Fin 16),
    (flags fin opcode &&& 0xf).toNat = opcode := by decide

theorem flags_control : ∀ (fin : Bool) (opcode : Fin 16),
    (flags fin opcode &&& 0xf &&& 0x8 != 0) = decide (8 ≤ opcode) := by decide

theorem lengthByte_masked : ∀ (masked : Bool) (code : Fin 128),
    (lengthByte masked code &&& 0x80 != 0) = masked := by decide

theorem lengthByte_code : ∀ (masked : Bool) (code : Fin 128),
    (lengthByte masked code &&& 0x7f).toNat = code := by decide

namespace Frame

variable (f : Frame)

/-- The bytes of the key. -/
def keyBytes : List UInt8 := (f.key.map List.ofFn).getD []

/-- The bytes before the payload. -/
def head : List UInt8 :=
  flags f.fin f.opcode :: lengthByte f.key.isSome (f.form.code f.payload.length) ::
    (f.form.extended f.payload.length ++ f.keyBytes)

/-- The payload as it is sent. -/
def body : List UInt8 :=
  match f.key with
  | none => f.payload
  | some key => mask key 0 f.payload

def encode : List UInt8 := f.head ++ f.body

@[simp] theorem length_body : f.body.length = f.payload.length := by
  rw [body]
  split
  · rfl
  · exact length_mask ..

end Frame

end WebSocket
