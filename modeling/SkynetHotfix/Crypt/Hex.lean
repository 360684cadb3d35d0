import Mathlib.Data.List.Induction
import SkynetHotfix.Crypt.Basic

/-!
# Hex texts

`hexencode` makes two characters of a byte, and `hexdecode` makes the byte again (`lfromhex_ltohex`).
`hexdecode` takes more than that: the macro `HEX` tests a character for a decimal digit only, and
takes any other one, less `'a' - 10`, that is then not above 16. So the characters from `'W'` on
are digits too, up to a `'g'` for 16 (`HEX_le_iff`), whose top bit falls out of the byte.
-/

namespace SkynetHotfix.Crypt

def hex : List Char :=
  ['0', '1', '2', '3', '4', '5', '6', '7', '8', '9', 'a', 'b', 'c', 'd', 'e', 'f']

def hexChar (n : UInt8) : UInt8 := UInt8.ofNat (hex.getD n.toNat '0').toNat

def ltohex : Text → Text
  | [] => []
  | c :: text => hexChar (c >>> 4) :: hexChar (c &&& 0xf) :: ltohex text

/-- The characters are signed in C, but none below 0 is in the first range either. -/
def HEX (c : UInt8) : UInt8 := if 48 ≤ c ∧ c ≤ 57 then c - 48 else c - 97 + 10

def fromhexLoop : Text → Except Fault Text
  | t0 :: t1 :: text => do
    let hi := HEX t0
    let low := HEX t1
    if hi > 16 ∨ low > 16 then raise "Invalid hex text"
    return (hi <<< 4 ||| low) :: (← fromhexLoop text)
  | _ => return []

def lfromhex (text : Text) : Except Fault Text :=
  if text.length % 2 = 1 then raise ("Invalid hex text size " ++ toString text.length)
  else fromhexLoop text

def lxor_str (s1 s2 : Text) : Except Fault Text :=
  if s2.length = 0 then raise "Can't xor empty string"
  else .ok (s1.mapIdx fun i c => c ^^^ s2.getD (i % s2.length) 0)

variable {c t0 t1 : UInt8} {text : Text}

/-! ## The characters -/

theorem HEX_hex : ∀ n < 16, HEX (hexChar (UInt8.ofNat n)) = UInt8.ofNat n := by decide

theorem HEX_hexChar {n : UInt8} (h : n.toNat < 16) : HEX (hexChar n) = n := by
  have hn := HEX_hex n.toNat h
  rwa [UInt8.ofNat_toNat] at hn

theorem toNat_shift (c : UInt8) : (c >>> 4).toNat = c.toNat / 16 := by
  rw [UInt8.toNat_shiftRight, Nat.shiftRight_eq_div_pow]
  rfl

theorem toNat_mask (c : UInt8) : (c &&& 0xf).toNat = c.toNat % 16 := by
  rw [UInt8.toNat_and]
  exact Nat.and_two_pow_sub_one_eq_mod c.toNat 4

theorem halves (c : UInt8) : (c >>> 4) <<< 4 ||| (c &&& 0xf) = c := by
  apply UInt8.toNat_inj.mp
  have hc := c.toNat_lt
  have hlow : c.toNat % 16 < 2 ^ 4 := Nat.mod_lt _ (by decide)
  rw [UInt8.toNat_or, UInt8.toNat_shiftLeft, toNat_shift, toNat_mask]
  show (c.toNat / 16) <<< 4 % 256 ||| c.toNat % 16 = c.toNat
  rw [Nat.mod_eq_of_lt (by rw [Nat.shiftLeft_eq]; omega), ← Nat.shiftLeft_add_eq_or_of_lt hlow,
    Nat.shiftLeft_eq]
  omega

/-- What counts as a digit. -/
def Digit (c : UInt8) : Prop := (48 ≤ c ∧ c ≤ 57) ∨ (87 ≤ c ∧ c ≤ 103)

theorem HEX_le_iff (c : UInt8) : HEX c ≤ 16 ↔ Digit c := by
  have hc := c.toNat_lt
  unfold HEX Digit
  split <;> rename_i hdigit <;>
    simp only [UInt8.le_iff_toNat_le, UInt8.toNat_add, UInt8.toNat_sub,
      UInt8.reduceToNat] at hdigit ⊢ <;>
    omega

/-! ## The texts -/

theorem length_ltohex (text : Text) : (ltohex text).length = 2 * text.length := by
  induction text with
  | nil => rfl
  | cons c text ih =>
    rw [ltohex, List.length_cons, List.length_cons, ih, List.length_cons]
    omega

theorem fromhexLoop_cons (h0 : Digit t0) (h1 : Digit t1) (text : Text) :
    fromhexLoop (t0 :: t1 :: text) =
      (fromhexLoop text).map ((HEX t0 <<< 4 ||| HEX t1) :: ·) := by
  have h0 : ¬ HEX t0 > 16 := UInt8.not_lt.mpr ((HEX_le_iff t0).mpr h0)
  have h1 : ¬ HEX t1 > 16 := UInt8.not_lt.mpr ((HEX_le_iff t1).mpr h1)
  rw [fromhexLoop]
  dsimp only
  rw [if_neg (not_or.mpr ⟨h0, h1⟩)]
  cases fromhexLoop text <;> rfl

theorem fromhexLoop_invalid (h : ¬ (Digit t0 ∧ Digit t1)) (text : Text) :
    fromhexLoop (t0 :: t1 :: text) = raise "Invalid hex text" := by
  have hlarge : HEX t0 > 16 ∨ HEX t1 > 16 := by
    rw [← HEX_le_iff, ← HEX_le_iff, Classical.not_and_iff_not_or_not] at h
    exact h.imp UInt8.not_le.mp UInt8.not_le.mp
  rw [fromhexLoop]
  dsimp only
  rw [if_pos hlarge]
  rfl

theorem digit_hexChar {n : UInt8} (h : n.toNat < 16) : Digit (hexChar n) := by
  rw [← HEX_le_iff, HEX_hexChar h, UInt8.le_iff_toNat_le]
  exact Nat.le_of_lt h

theorem lfromhex_ltohex (text : Text) : lfromhex (ltohex text) = .ok text := by
  have hloop : fromhexLoop (ltohex text) = .ok text := by
    induction text with
    | nil => rfl
    | cons c text ih =>
      have hc := c.toNat_lt
      have hhi : (c >>> 4).toNat < 16 := by
        rw [toNat_shift]
        omega
      have hlow : (c &&& 0xf).toNat < 16 := by
        rw [toNat_mask]
        omega
      rw [ltohex, fromhexLoop_cons (digit_hexChar hhi) (digit_hexChar hlow), ih,
        HEX_hexChar hhi, HEX_hexChar hlow, halves]
      rfl
  rw [lfromhex, length_ltohex, if_neg (by omega), hloop]

/-- The loop of `fromhex` ends with an error where some character is no digit. -/
theorem fromhexLoop_ok (text : Text) (heven : text.length % 2 = 0) :
    (∃ x, fromhexLoop text = .ok x) ∧ (∀ c ∈ text, Digit c) ∨
      fromhexLoop text = raise "Invalid hex text" ∧ ¬ ∀ c ∈ text, Digit c := by
  induction text using List.twoStepInduction with
  | nil => exact .inl ⟨⟨[], rfl⟩, by simp⟩
  | singleton t0 => cases heven
  | cons_cons t0 t1 text ih _ =>
    have heven' : text.length % 2 = 0 := by
      rw [List.length_cons, List.length_cons] at heven
      omega
    rw [List.forall_mem_cons, List.forall_mem_cons]
    by_cases hdigits : Digit t0 ∧ Digit t1
    · rw [fromhexLoop_cons hdigits.1 hdigits.2]
      obtain ⟨⟨x, hx⟩, hall⟩ | ⟨hraise, hnot⟩ := ih heven'
      · rw [hx]
        exact .inl ⟨⟨_, rfl⟩, hdigits.1, hdigits.2, hall⟩
      · rw [hraise]
        exact .inr ⟨rfl, fun hall => hnot hall.2.2⟩
    · rw [fromhexLoop_invalid hdigits]
      exact .inr ⟨rfl, fun hall => hdigits ⟨hall.1, hall.2.1⟩⟩

/-- `fromhex` gives the text of which `tohex` made the hex text, and takes just the texts of even
length whose characters are digits, among them those from `'W'` to `'g'`. -/
theorem fromhex_tohex (text : Text) : lfromhex (ltohex text) = .ok text ∧
    (text.length % 2 = 1 →
      lfromhex text = raise ("Invalid hex text size " ++ toString text.length)) ∧
    (text.length % 2 = 0 → (∃ c ∈ text, ¬ Digit c) → lfromhex text = raise "Invalid hex text") ∧
    (text.length % 2 = 0 → (∀ c ∈ text, Digit c) → ∃ x, lfromhex text = .ok x) := by
  refine ⟨lfromhex_ltohex text, fun hodd => if_pos hodd, fun heven hnot => ?_, fun heven hall => ?_⟩
  · rw [lfromhex, if_neg (by omega)]
    obtain ⟨-, hall⟩ | ⟨hraise, -⟩ := fromhexLoop_ok text heven
    · obtain ⟨c, hc, hdigit⟩ := hnot
      exact absurd (hall c hc) hdigit
    · exact hraise
  · rw [lfromhex, if_neg (by omega)]
    obtain ⟨hx, -⟩ | ⟨-, hnot⟩ := fromhexLoop_ok text heven
    · exact hx
    · exact absurd hall hnot

/-- `"0g"` is taken for the byte 16. -/
example : lfromhex [48, 103] = .ok [16] := by decide

/-- The same string once more takes `xor_str` back. -/
theorem lxor_str_lxor_str (s1 : Text) {s2 : Text} (h : s2 ≠ []) :
    (lxor_str s1 s2 >>= fun s => lxor_str s s2) = .ok s1 := by
  have hlen : s2.length ≠ 0 := fun hlen => h (List.length_eq_zero_iff.mp hlen)
  simp only [lxor_str, if_neg hlen]
  show Except.ok _ = Except.ok s1
  congr 1
  apply List.ext_getElem
  · simp
  · intro i hi hi'
    rw [List.getElem_mapIdx, List.getElem_mapIdx, UInt8.xor_assoc, UInt8.xor_self, UInt8.xor_zero]

end SkynetHotfix.Crypt
