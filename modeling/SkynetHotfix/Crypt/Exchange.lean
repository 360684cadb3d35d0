import Mathlib.Algebra.Order.Ring.Nat
import Mathlib.Data.Nat.ModEq
import Mathlib.Tactic.Ring
import SkynetHotfix.Crypt.Basic
import SkynetHotfix.Lib.LittleEndian

/-!
# The exchange of keys

`dhexchange` makes `5 ^ x` of the number `x` of a key, modulo the prime `P`, and `dhsecret` takes
what the other side made to its own power. The multiplication keeps below `P` in 64 bits
(`mul_mod_p_spec`), the power squares and multiplies (`pow_mod_p_spec`), and so both sides have the
same secret (`dhexchange_eq`, `dhsecret_eq`).
-/

namespace SkynetHotfix.Crypt

open LittleEndian

@[irreducible] def P : BitVec 64 := 0xffffffffffffffc5

def G : BitVec 64 := 5

/-- The rest of the loop of `mul_mod_p`. -/
def mulModLoop (a b m : BitVec 64) : BitVec 64 :=
  if b = 0 then m
  else
    let t := P - a
    let m' := if b &&& 1 = 0 then m else if m ≥ t then m - t else m + a
    let a' := if a ≥ P - a then a * 2 - P else a * 2
    mulModLoop a' (b >>> 1) m'
termination_by b.toNat
decreasing_by
  have hb : b.toNat ≠ 0 := fun h => ‹b ≠ 0› (BitVec.eq_of_toNat_eq h)
  rw [BitVec.toNat_ushiftRight, Nat.shiftRight_eq_div_pow]
  omega

def mul_mod_p (a b : BitVec 64) : BitVec 64 := mulModLoop a b 0

theorem shift_toNat (b : BitVec 64) : (b >>> 1).toNat = b.toNat / 2 := by
  rw [BitVec.toNat_ushiftRight, Nat.shiftRight_eq_div_pow, Nat.pow_one]

/-- `b` is not 0; of 0 the function would not return. -/
def pow_mod_p (a b : BitVec 64) (hb : b ≠ 0) : BitVec 64 :=
  if h : b = 1 then a
  else
    have hshift : b >>> 1 ≠ 0 := by
      intro h0
      have h0 : b.toNat / 2 = 0 := by rw [← shift_toNat, h0]; rfl
      have h1 : b.toNat ≠ 1 := fun h1 => h (BitVec.eq_of_toNat_eq h1)
      have h2 : b.toNat ≠ 0 := fun h2 => hb (BitVec.eq_of_toNat_eq h2)
      omega
    let t := pow_mod_p a (b >>> 1) hshift
    let t := mul_mod_p t t
    if b % 2 ≠ 0 then mul_mod_p t a else t
termination_by b.toNat
decreasing_by
  have hb : b.toNat ≠ 0 := fun h => hb (BitVec.eq_of_toNat_eq h)
  rw [shift_toNat]
  omega

def powmodp (a b : BitVec 64) (hb : b ≠ 0) : BitVec 64 :=
  let a := if a > P then a % P else a
  pow_mod_p a b hb

def ldhsecret (x y : Text) : Except Fault Text := do
  let xx := (← read64 "Invalid uint64 x" x).toUInt64
  let yy := (← read64 "Invalid uint64 y" y).toUInt64
  if h : xx = 0 ∨ yy = 0 then raise "Can't be 0"
  else return push64 (powmodp xx yy (not_or.mp h).2)

def ldhexchange (x : Text) : Except Fault Text := do
  let x64 := (← read64 "Invalid dh uint64 key" x).toUInt64
  if h : x64 = 0 then raise "Can't be 0"
  else return push64 (powmodp G x64 h)

/-! ## The arithmetic -/

variable {a b m : BitVec 64}

theorem P_toNat : P.toNat = 18446744073709551557 := by
  unfold P
  rfl

theorem P_pos : 0 < P.toNat := by
  rw [P_toNat]
  decide

theorem add_mod_p (ha : a.toNat < P.toNat) (hm : m.toNat < P.toNat) :
    (if m ≥ P - a then m - (P - a) else m + a).toNat = (m.toNat + a.toNat) % P.toNat := by
  have hsub : (P - a).toNat = P.toNat - a.toNat := BitVec.toNat_sub_of_le (by
    rw [BitVec.le_def]
    omega)
  rw [P_toNat] at *
  split <;> rename_i h <;> rw [ge_iff_le, BitVec.le_def, hsub] at h
  · rw [BitVec.toNat_sub_of_le (by rw [BitVec.le_def, hsub]; exact h), hsub]
    omega
  · rw [BitVec.toNat_add]
    omega

theorem double_mod_p (ha : a.toNat < P.toNat) :
    (if a ≥ P - a then a * 2 - P else a * 2).toNat = (a.toNat + a.toNat) % P.toNat := by
  have htwo : a * 2 = a + a := by
    apply BitVec.eq_of_toNat_eq
    rw [BitVec.toNat_mul, BitVec.toNat_add]
    show a.toNat * 2 % 2 ^ 64 = _
    omega
  have hsub : a + a - P = a - (P - a) := by bv_omega
  rw [htwo, hsub]
  exact add_mod_p ha ha

theorem and_one_toNat (b : BitVec 64) : b &&& 1 = 0 ↔ b.toNat % 2 = 0 := by
  rw [← BitVec.toNat_inj, BitVec.toNat_and]
  show b.toNat &&& 1 = 0 ↔ _
  rw [Nat.and_one_is_mod]

theorem double_and_add (p m a b : Nat) :
    ((m + a * (b % 2)) % p + (a + a) % p * (b / 2)) % p = (m + a * b) % p := by
  have hmod : (m + a * (b % 2)) % p + (a + a) % p * (b / 2) ≡
      m + a * (b % 2) + (a + a) * (b / 2) [MOD p] :=
    (Nat.mod_modEq _ _).add ((Nat.mod_modEq _ _).mul_right _)
  have hb : a * b = a * (b % 2) + (a + a) * (b / 2) := by
    rw [← Nat.mul_two, Nat.mul_assoc, ← Nat.mul_add, Nat.mod_add_div]
  rw [hb, ← Nat.add_assoc]
  exact hmod

theorem mulModLoop_step (hb : b ≠ 0) : mulModLoop a b m =
    mulModLoop (if a ≥ P - a then a * 2 - P else a * 2) (b >>> 1)
      (if b &&& 1 = 0 then m else if m ≥ P - a then m - (P - a) else m + a) := by
  rw [mulModLoop, if_neg hb]

theorem mulModLoop_spec (ha : a.toNat < P.toNat) (hm : m.toNat < P.toNat) :
    (mulModLoop a b m).toNat = (m.toNat + a.toNat * b.toNat) % P.toNat := by
  induction hn : b.toNat using Nat.strongRecOn generalizing a b m with
  | ind n ih =>
    by_cases hb : b = 0
    · subst hb
      have hzero : (0 : BitVec 64).toNat = 0 := rfl
      rw [← hn, mulModLoop, if_pos rfl, hzero, Nat.mul_zero, Nat.add_zero, Nat.mod_eq_of_lt hm]
    have hpos : b.toNat ≠ 0 := fun h => hb (BitVec.eq_of_toNat_eq h)
    have ha' := double_mod_p ha
    have hm' : (if b &&& 1 = 0 then m else if m ≥ P - a then m - (P - a) else m + a).toNat =
        (m.toNat + a.toNat * (b.toNat % 2)) % P.toNat := by
      by_cases hbit : b &&& 1 = 0
      · rw [if_pos hbit, (and_one_toNat b).mp hbit, Nat.mul_zero, Nat.add_zero,
          Nat.mod_eq_of_lt hm]
      · have hone : b.toNat % 2 = 1 := by
          have := mt (and_one_toNat b).mpr hbit
          omega
        rw [if_neg hbit, hone, Nat.mul_one, add_mod_p ha hm]
    rw [mulModLoop_step hb, ih (b.toNat / 2) (by omega) _ _ (shift_toNat b), ha', hm',
      double_and_add, hn]
    · rw [ha']
      exact Nat.mod_lt _ P_pos
    · rw [hm']
      exact Nat.mod_lt _ P_pos

theorem mul_mod_p_spec (ha : a.toNat < P.toNat) (b : BitVec 64) :
    (mul_mod_p a b).toNat = a.toNat * b.toNat % P.toNat := by
  have hzero : (0 : BitVec 64).toNat = 0 := rfl
  rw [mul_mod_p, mulModLoop_spec ha (hzero ▸ P_pos), hzero, Nat.zero_add]

theorem two_toNat (b : BitVec 64) : b % 2 ≠ 0 ↔ b.toNat % 2 = 1 := by
  rw [Ne, ← BitVec.toNat_inj, BitVec.toNat_umod]
  show ¬ b.toNat % 2 = 0 ↔ _
  omega

theorem square_and_multiply (p a b : Nat) :
    (a ^ (b / 2) % p) * (a ^ (b / 2) % p) % p * a ^ (b % 2) % p = a ^ b % p := by
  have hmod : (a ^ (b / 2) % p) * (a ^ (b / 2) % p) % p * a ^ (b % 2) ≡
      a ^ (b / 2) * a ^ (b / 2) * a ^ (b % 2) [MOD p] :=
    ((Nat.mod_modEq _ _).trans ((Nat.mod_modEq _ _).mul (Nat.mod_modEq _ _))).mul_right _
  have hb : a ^ b = a ^ (b / 2) * a ^ (b / 2) * a ^ (b % 2) := by
    rw [← Nat.pow_add, ← Nat.pow_add]
    congr 1
    omega
  rw [hb]
  exact hmod

theorem pow_mod_p_spec (ha : a.toNat < P.toNat) (hb : b ≠ 0) :
    (pow_mod_p a b hb).toNat = a.toNat ^ b.toNat % P.toNat := by
  induction hn : b.toNat using Nat.strongRecOn generalizing b with
  | ind n ih =>
    by_cases h1 : b = 1
    · subst h1
      have hone : (1 : BitVec 64).toNat = 1 := rfl
      rw [← hn, pow_mod_p, dif_pos rfl, hone, Nat.pow_one, Nat.mod_eq_of_lt ha]
    have hpos : b.toNat ≠ 0 := fun h => hb (BitVec.eq_of_toNat_eq h)
    rw [pow_mod_p, dif_neg h1]
    extract_lets hshift t t'
    have ht : t.toNat = a.toNat ^ (b.toNat / 2) % P.toNat :=
      ih (b.toNat / 2) (by omega) hshift (shift_toNat b)
    have hsquare : t'.toNat = t.toNat * t.toNat % P.toNat :=
      mul_mod_p_spec (ht ▸ Nat.mod_lt _ P_pos) t
    have hlt : t'.toNat < P.toNat := hsquare ▸ Nat.mod_lt _ P_pos
    have hpow := square_and_multiply P.toNat a.toNat b.toNat
    rw [← ht, ← hsquare] at hpow
    by_cases hbit : b % 2 ≠ 0
    · rw [if_pos hbit, mul_mod_p_spec hlt, ← hn, ← hpow, (two_toNat b).mp hbit, Nat.pow_one]
    · have hzero : b.toNat % 2 = 0 := by
        have := mt (two_toNat b).mpr hbit
        omega
      rw [if_neg hbit, ← hn, ← hpow, hzero, Nat.pow_zero, Nat.mul_one, Nat.mod_eq_of_lt hlt]

theorem powmodp_spec (ha : a.toNat < P.toNat) (hb : b ≠ 0) :
    (powmodp a b hb).toNat = a.toNat ^ b.toNat % P.toNat := by
  have hle : ¬ a > P := by
    rw [gt_iff_lt, BitVec.lt_def]
    omega
  rw [powmodp, if_neg hle, pow_mod_p_spec ha]

/-! ## The secret -/

/-- The number a text of eight bytes keeps. -/
def number (x : Text) : Nat := ofLE x

theorem byte_eq {w : Nat} (n : BitVec w) : byte n = UInt8.ofNat n.toNat := by
  rw [byte, ← BitVec.ofNat_toNat]
  rfl

theorem push64_eq (n : BitVec 64) : push64 n = toLE 8 n.toNat := by
  simp [push64, toLE, byte_eq, Nat.shiftRight_eq_div_pow, Nat.div_div_eq_div_mul]

theorem push64_read64 (x0 x1 x2 x3 x4 x5 x6 x7 : UInt8) :
    push64 (UInt32x2.toUInt64 ⟨word x0 x1 x2 x3, word x4 x5 x6 x7⟩) =
      [x0, x1, x2, x3, x4, x5, x6, x7] := by
  simp only [push64, UInt32x2.toUInt64, word, byte, List.cons.injEq, and_true]
  refine ⟨?_, ?_, ?_, ?_, ?_, ?_, ?_, ?_⟩ <;> apply UInt8.eq_of_toBitVec_eq <;>
    apply BitVec.eq_of_getLsbD_eq <;> intro i hi <;>
    simp only [BitVec.getLsbD_or, BitVec.getLsbD_shiftLeft, BitVec.getLsbD_setWidth,
      BitVec.getLsbD_ushiftRight] <;>
    grind

theorem read64_eq (msg : String) {x : Text} (hx : x.length = 8) :
    ∃ xx, read64 msg x = .ok xx ∧ xx.toUInt64.toNat = number x := by
  match x, hx with
  | [x0, x1, x2, x3, x4, x5, x6, x7], _ =>
    refine ⟨_, rfl, ?_⟩
    rw [number, ← push64_read64, push64_eq, ofLE_toLE, Nat.mod_eq_of_lt]
    exact BitVec.isLt _

/-- `5 ^ n` modulo `P`, as a text. -/
def powerText (n : Nat) : Text := toLE 8 (5 ^ n % P.toNat)

theorem dhexchange_eq {x : Text} (hx : x.length = 8) (h0 : number x ≠ 0) :
    ldhexchange x = .ok (powerText (number x)) := by
  obtain ⟨xx, hread, hnum⟩ := read64_eq "Invalid dh uint64 key" hx
  have hne : xx.toUInt64 ≠ 0 := by
    intro h
    rw [h] at hnum
    exact h0 hnum.symm
  have hG : G.toNat < P.toNat := by
    rw [P_toNat]
    decide
  rw [ldhexchange, hread]
  show (if h : xx.toUInt64 = 0 then raise _ else Except.ok _) = _
  rw [dif_neg hne, push64_eq, powmodp_spec hG, hnum]
  rfl

theorem coprime_P (n : Nat) : 5 ^ n % P.toNat ≠ 0 := by
  intro h
  have hdvd : P.toNat ∣ 5 ^ n := Nat.dvd_of_mod_eq_zero h
  have hcop : Nat.Coprime P.toNat (5 ^ n) := by
    apply Nat.Coprime.pow_right
    rw [P_toNat]
    decide
  have hone : P.toNat = 1 := hcop.eq_one_of_dvd hdvd
  rw [P_toNat] at hone
  omega

theorem number_powerText (n : Nat) : number (powerText n) = 5 ^ n % P.toNat := by
  rw [number, powerText, ofLE_toLE, Nat.mod_eq_of_lt]
  exact (Nat.mod_lt _ P_pos).trans (by rw [P_toNat]; decide)

theorem dhsecret_eq {x : Text} (hx : x.length = 8) (h0 : number x ≠ 0) (n : Nat) :
    ldhsecret (powerText n) x = .ok (powerText (n * number x)) := by
  obtain ⟨xx, hread, hnum⟩ := read64_eq "Invalid uint64 x" (length_toLE 8 (5 ^ n % P.toNat))
  obtain ⟨yy, hready, hnumy⟩ := read64_eq "Invalid uint64 y" hx
  have hpower : xx.toUInt64.toNat = 5 ^ n % P.toNat := hnum.trans (number_powerText n)
  have hne : ¬ (xx.toUInt64 = 0 ∨ yy.toUInt64 = 0) := by
    rintro (h | h)
    · rw [h] at hpower
      exact coprime_P n hpower.symm
    · rw [h] at hnumy
      exact h0 hnumy.symm
  have hlt : xx.toUInt64.toNat < P.toNat := hpower ▸ Nat.mod_lt _ P_pos
  rw [ldhsecret, powerText, hread, hready]
  show (if h : xx.toUInt64 = 0 ∨ yy.toUInt64 = 0 then raise _ else Except.ok _) = _
  rw [dif_neg hne, push64_eq, powmodp_spec hlt, hnumy, hpower, powerText, Nat.pow_mul,
    ← Nat.pow_mod]

/-- The one side has the secret of the other side. -/
theorem dhsecret_dhexchange {x y : Text} (hx : x.length = 8) (hy : y.length = 8)
    (hx0 : number x ≠ 0) (hy0 : number y ≠ 0) :
    (ldhexchange y >>= fun e => ldhsecret e x) = .ok (powerText (number x * number y)) ∧
      (ldhexchange x >>= fun e => ldhsecret e y) = .ok (powerText (number x * number y)) := by
  rw [dhexchange_eq hx hx0, dhexchange_eq hy hy0]
  constructor
  · rw [Nat.mul_comm]
    exact dhsecret_eq hx hx0 (number y)
  · exact dhsecret_eq hy hy0 (number x)

theorem dhsecret_dhexchange_sample :
    (ldhexchange [2, 0, 0, 0, 0, 0, 0, 0] >>= fun e => ldhsecret e [3, 0, 0, 0, 0, 0, 0, 0]) =
        .ok (powerText (3 * 2)) ∧
      (ldhexchange [3, 0, 0, 0, 0, 0, 0, 0] >>= fun e => ldhsecret e [2, 0, 0, 0, 0, 0, 0, 0]) =
        .ok (powerText (3 * 2)) :=
  dhsecret_dhexchange rfl rfl (by decide) (by decide)

theorem eq_zero_of_number {x : Text} (h : number x = 0) : ∀ c ∈ x, c = 0 := by
  induction x with
  | nil => simp
  | cons c x ih =>
    have hsum : c.toNat + 256 * number x = 0 := h
    have hc : c = 0 := UInt8.toNat_inj.mp (by show c.toNat = 0; omega)
    simp only [List.mem_cons, forall_eq_or_imp]
    exact ⟨hc, ih (by omega)⟩

/-- `randomkey` is never 0. -/
theorem number_lrandomkey (tmp : Vector UInt8 8) : number (lrandomkey tmp) ≠ 0 := by
  intro h
  have hzero := eq_zero_of_number h
  unfold lrandomkey at hzero
  extract_lets x at hzero
  split at hzero
  · have hodd : tmp[0] ||| 1 = 0 := hzero _ (by
      rw [Vector.mem_toList_iff]
      exact Vector.mem_set ..)
    have hbit : (tmp[0] ||| 1).toBitVec.getLsbD 0 = true := by simp
    rw [hodd] at hbit
    simp at hbit
  · rename_i hx
    apply hx
    have hrep : tmp.toList = List.replicate 8 0 := List.eq_replicate_iff.mpr ⟨by simp, hzero⟩
    show tmp.toList.foldl (· ^^^ ·) 0 = 0
    rw [hrep]
    rfl

end SkynetHotfix.Crypt
