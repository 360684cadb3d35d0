import Mathlib.Algebra.Order.Ring.Nat
import Mathlib.Data.List.Infix
import SkynetHotfix.Crypt.Basic

/-!
# Base64

`base64encode` makes four characters of three bytes, `base64decode` three bytes of four characters.
The decoder passes over what is not of the alphabet, but not at the end of the text
(`lb64decode_kept`).
-/

namespace SkynetHotfix.Crypt

def encoding : List Char :=
  ['A', 'B', 'C', 'D', 'E', 'F', 'G', 'H', 'I', 'J', 'K', 'L', 'M', 'N', 'O', 'P', 'Q', 'R', 'S',
    'T', 'U', 'V', 'W', 'X', 'Y', 'Z', 'a', 'b', 'c', 'd', 'e', 'f', 'g', 'h', 'i', 'j', 'k', 'l',
    'm', 'n', 'o', 'p', 'q', 'r', 's', 't', 'u', 'v', 'w', 'x', 'y', 'z', '0', '1', '2', '3', '4',
    '5', '6', '7', '8', '9', '+', '/']

def encodeChar (n : BitVec 32) : UInt8 := UInt8.ofNat (encoding.getD n.toNat '=').toNat

/-- `'='`. -/
def pad : UInt8 := 61

def lb64encode : Text → Text
  | t0 :: t1 :: t2 :: text =>
    let v := t0.toBitVec.setWidth 32 <<< 16 ||| t1.toBitVec.setWidth 32 <<< 8 |||
      t2.toBitVec.setWidth 32
    encodeChar (v >>> 18) :: encodeChar (v >>> 12 &&& 0x3f) :: encodeChar (v >>> 6 &&& 0x3f) ::
      encodeChar (v &&& 0x3f) :: lb64encode text
  | [t0] =>
    let v := t0.toBitVec.setWidth 32
    [encodeChar (v >>> 2), encodeChar ((v &&& 3) <<< 4), pad, pad]
  | [t0, t1] =>
    let v := t0.toBitVec.setWidth 32 <<< 8 ||| t1.toBitVec.setWidth 32
    [encodeChar (v >>> 10), encodeChar (v >>> 4 &&& 0x3f), encodeChar ((v &&& 0xf) <<< 2), pad]
  | [] => []

def decoding : List Int :=
  [62, -1, -1, -1, 63, 52, 53, 54, 55, 56, 57, 58, 59, 60, 61, -1, -1, -1, -2, -1, -1, -1, 0, 1, 2,
    3, 4, 5, 6, 7, 8, 9, 10, 11, 12, 13, 14, 15, 16, 17, 18, 19, 20, 21, 22, 23, 24, 25, -1, -1,
    -1, -1, -1, -1, 26, 27, 28, 29, 30, 31, 32, 33, 34, 35, 36, 37, 38, 39, 40, 41, 42, 43, 44, 45,
    46, 47, 48, 49, 50, 51]

/-- -1 of a character that is passed over, -2 of a padding. -/
def b64index (c : UInt8) : Int := if c < 43 then -1 else decoding.getD (c - 43).toNat (-1)

/-- The loop over `j`, which fills `c[4 - j]` and what is behind it. -/
def nextC : (j : Nat) → Text → Option (List Int × Text)
  | 0, text => some ([], text)
  | _ + 1, [] => none
  | j + 1, t :: text =>
    if b64index t = -1 then nextC (j + 1) text
    else (nextC j text).map fun c => (b64index t :: c.1, c.2)

def invalid {α : Type} : Except Fault α := raise "Invalid base64 text"

/-- The bytes of four characters. -/
def output (c : List Int) : Except Fault Text :=
  let c0 := BitVec.ofInt 32 (c.getD 0 0)
  let c1 := BitVec.ofInt 32 (c.getD 1 0)
  let c2 := BitVec.ofInt 32 (c.getD 2 0)
  let c3 := BitVec.ofInt 32 (c.getD 3 0)
  match c.count (-2) with
  | 0 =>
    let v := c0 <<< 18 ||| c1 <<< 12 ||| c2 <<< 6 ||| c3
    .ok [byte (v >>> 16), byte (v >>> 8), byte v]
  | 1 =>
    if c.getD 3 0 ≠ -2 ∨ c2 &&& 3 ≠ 0 then invalid
    else
      let v := c0 <<< 10 ||| c1 <<< 4 ||| c2 >>> 2
      .ok [byte (v >>> 8), byte v]
  | 2 =>
    if c.getD 3 0 ≠ -2 ∨ c.getD 2 0 ≠ -2 ∨ c1 &&& 0xf ≠ 0 then invalid
    else
      let v := c0 <<< 2 ||| c1 >>> 4
      .ok [byte v]
  | _ => invalid

theorem length_nextC {j : Nat} {text rest : Text} {c : List Int}
    (h : nextC j text = some (c, rest)) : rest.length + j ≤ text.length := by
  fun_induction nextC j text generalizing c rest with
  | case1 text => simp_all
  | case2 j => cases h
  | case3 j t text hskip ih =>
    have := ih h
    simp
    omega
  | case4 j t text hkeep ih =>
    obtain ⟨⟨c', rest'⟩, hnext, hc⟩ := Option.map_eq_some_iff.mp h
    obtain ⟨-, rfl⟩ := Prod.mk.inj hc
    have := ih hnext
    simp
    omega

def lb64decode (text : Text) : Except Fault Text :=
  if text = [] then .ok []
  else
    match h : nextC 4 text with
    | none => invalid
    | some (c, rest) => do
      have : rest.length < text.length := by
        have := length_nextC h
        omega
      let out ← output c
      let outs ← lb64decode rest
      return out ++ outs
termination_by text.length

/-! ## The bits -/

/-- A mask of the lowest `k` bits. -/
theorem getLsbD_mask {m : BitVec 32} (k : Nat) (hm : m.toNat = 2 ^ k - 1) (i : Nat) :
    m.getLsbD i = decide (i < k) := by
  rw [BitVec.getLsbD, hm, Nat.testBit_two_pow_sub_one]

theorem toNat_lt_64 {n : BitVec 32} (h : ∀ i ≥ 6, n.getLsbD i = false) : n.toNat < 64 :=
  Nat.lt_pow_two_of_testBit n.toNat h

theorem b64index_encoding : ∀ n < 64,
    b64index (UInt8.ofNat (encoding.getD n '=').toNat) = n := by
  decide

theorem b64index_encodeChar {n : BitVec 32} (h : ∀ i ≥ 6, n.getLsbD i = false) :
    b64index (encodeChar n) = n.toNat :=
  b64index_encoding n.toNat (toNat_lt_64 h)

theorem b64index_pad : b64index pad = -2 := by decide

theorem toNat_ne (n : BitVec 32) : (n.toNat : Int) ≠ -2 := by omega

theorem b64index_mask_6 (n : BitVec 32) :
    b64index (encodeChar (n &&& 0x3f)) = (n &&& 0x3f).toNat := by
  apply b64index_encodeChar
  intro i hi
  rw [BitVec.getLsbD_and, getLsbD_mask (m := 0x3f) 6 rfl]
  simp
  omega

theorem output_0 (n0 n1 n2 n3 : BitVec 32) {v : BitVec 32}
    (hv : n0 <<< 18 ||| n1 <<< 12 ||| n2 <<< 6 ||| n3 = v) :
    output [n0.toNat, n1.toNat, n2.toNat, n3.toNat] =
      .ok [byte (v >>> 16), byte (v >>> 8), byte v] := by
  simp [output, toNat_ne, hv]

theorem output_1 (n0 n1 n2 : BitVec 32) {v : BitVec 32} (hn : n2 &&& 3 = 0)
    (hv : n0 <<< 10 ||| n1 <<< 4 ||| n2 >>> 2 = v) :
    output [n0.toNat, n1.toNat, n2.toNat, -2] = .ok [byte (v >>> 8), byte v] := by
  simp [output, toNat_ne, hv, show n2 &&& 3#32 = 0#32 from hn]

theorem output_2 (n0 n1 : BitVec 32) {v : BitVec 32} (hn : n1 &&& 0xf = 0)
    (hv : n0 <<< 2 ||| n1 >>> 4 = v) :
    output [n0.toNat, n1.toNat, -2, -2] = .ok [byte v] := by
  simp [output, toNat_ne, hv, show n1 &&& 15#32 = 0#32 from hn]

theorem byte_eq_of_bits {n : BitVec 32} {t : UInt8}
    (h : ∀ i < 8, n.getLsbD i = t.toBitVec.getLsbD i) : byte n = t := by
  apply UInt8.eq_of_toBitVec_eq
  apply BitVec.eq_of_getLsbD_eq
  intro i hi
  rw [← h i hi, byte, BitVec.getLsbD_setWidth]
  simp [hi]

theorem output_three (t0 t1 t2 : UInt8) {v : BitVec 32} (hv : t0.toBitVec.setWidth 32 <<< 16 |||
    t1.toBitVec.setWidth 32 <<< 8 ||| t2.toBitVec.setWidth 32 = v) :
    output ([encodeChar (v >>> 18), encodeChar (v >>> 12 &&& 0x3f),
      encodeChar (v >>> 6 &&& 0x3f), encodeChar (v &&& 0x3f)].map b64index) =
      .ok [t0, t1, t2] := by
  have h18 : b64index (encodeChar (v >>> 18)) = (v >>> 18).toNat := by
    apply b64index_encodeChar
    intro i hi
    simp only [← hv, BitVec.getLsbD_or, BitVec.getLsbD_shiftLeft, BitVec.getLsbD_setWidth,
      BitVec.getLsbD_ushiftRight]
    grind
  have hjoin : v >>> 18 <<< 18 ||| (v >>> 12 &&& 0x3f) <<< 12 ||| (v >>> 6 &&& 0x3f) <<< 6 |||
      v &&& 0x3f = v := by
    apply BitVec.eq_of_getLsbD_eq
    intro i hi
    simp only [BitVec.getLsbD_or, BitVec.getLsbD_and, BitVec.getLsbD_shiftLeft,
      BitVec.getLsbD_ushiftRight, getLsbD_mask (m := 0x3f) 6 rfl]
    grind
  simp only [List.map_cons, List.map_nil, h18, b64index_mask_6]
  rw [output_0 _ _ _ _ hjoin, byte_eq_of_bits (t := t0), byte_eq_of_bits (t := t1),
    byte_eq_of_bits (t := t2)]
  all_goals
    intro i hi
    simp only [← hv, BitVec.getLsbD_or, BitVec.getLsbD_shiftLeft, BitVec.getLsbD_setWidth,
      BitVec.getLsbD_ushiftRight]
    grind

theorem output_two (t0 t1 : UInt8) {v : BitVec 32}
    (hv : t0.toBitVec.setWidth 32 <<< 8 ||| t1.toBitVec.setWidth 32 = v) :
    output ([encodeChar (v >>> 10), encodeChar (v >>> 4 &&& 0x3f),
      encodeChar ((v &&& 0xf) <<< 2), pad].map b64index) = .ok [t0, t1] := by
  have h10 : b64index (encodeChar (v >>> 10)) = (v >>> 10).toNat := by
    apply b64index_encodeChar
    intro i hi
    simp only [← hv, BitVec.getLsbD_or, BitVec.getLsbD_shiftLeft, BitVec.getLsbD_setWidth,
      BitVec.getLsbD_ushiftRight]
    grind
  have h2 : b64index (encodeChar ((v &&& 0xf) <<< 2)) = ((v &&& 0xf) <<< 2).toNat := by
    apply b64index_encodeChar
    intro i hi
    simp only [BitVec.getLsbD_and, BitVec.getLsbD_shiftLeft, getLsbD_mask (m := 0xf) 4 rfl]
    grind
  have hlow : (v &&& 0xf) <<< 2 &&& 3 = 0 := by
    apply BitVec.eq_of_getLsbD_eq
    intro i hi
    simp only [BitVec.getLsbD_and, BitVec.getLsbD_shiftLeft, getLsbD_mask (m := 0xf) 4 rfl,
      getLsbD_mask (m := 3) 2 rfl]
    grind
  have hjoin : v >>> 10 <<< 10 ||| (v >>> 4 &&& 0x3f) <<< 4 ||| (v &&& 0xf) <<< 2 >>> 2 = v := by
    apply BitVec.eq_of_getLsbD_eq
    intro i hi
    simp only [BitVec.getLsbD_or, BitVec.getLsbD_and, BitVec.getLsbD_shiftLeft,
      BitVec.getLsbD_ushiftRight, getLsbD_mask (m := 0x3f) 6 rfl, getLsbD_mask (m := 0xf) 4 rfl]
    grind
  simp only [List.map_cons, List.map_nil, h10, h2, b64index_mask_6, b64index_pad]
  rw [output_1 _ _ _ hlow hjoin, byte_eq_of_bits (t := t0), byte_eq_of_bits (t := t1)]
  all_goals
    intro i hi
    simp only [← hv, BitVec.getLsbD_or, BitVec.getLsbD_shiftLeft, BitVec.getLsbD_setWidth,
      BitVec.getLsbD_ushiftRight]
    grind

theorem output_one (t0 : UInt8) {v : BitVec 32} (hv : t0.toBitVec.setWidth 32 = v) :
    output ([encodeChar (v >>> 2), encodeChar ((v &&& 3) <<< 4), pad, pad].map b64index) =
      .ok [t0] := by
  have h2 : b64index (encodeChar (v >>> 2)) = (v >>> 2).toNat := by
    apply b64index_encodeChar
    intro i hi
    simp only [← hv, BitVec.getLsbD_setWidth, BitVec.getLsbD_ushiftRight]
    grind
  have h4 : b64index (encodeChar ((v &&& 3) <<< 4)) = ((v &&& 3) <<< 4).toNat := by
    apply b64index_encodeChar
    intro i hi
    simp only [BitVec.getLsbD_and, BitVec.getLsbD_shiftLeft, getLsbD_mask (m := 3) 2 rfl]
    grind
  have hlow : (v &&& 3) <<< 4 &&& 0xf = 0 := by
    apply BitVec.eq_of_getLsbD_eq
    intro i hi
    simp only [BitVec.getLsbD_and, BitVec.getLsbD_shiftLeft, getLsbD_mask (m := 0xf) 4 rfl,
      getLsbD_mask (m := 3) 2 rfl]
    grind
  have hjoin : v >>> 2 <<< 2 ||| (v &&& 3) <<< 4 >>> 4 = v := by
    apply BitVec.eq_of_getLsbD_eq
    intro i hi
    simp only [BitVec.getLsbD_or, BitVec.getLsbD_and, BitVec.getLsbD_shiftLeft,
      BitVec.getLsbD_ushiftRight, getLsbD_mask (m := 3) 2 rfl]
    grind
  simp only [List.map_cons, List.map_nil, h2, h4, b64index_pad]
  rw [output_2 _ _ hlow hjoin, byte_eq_of_bits (t := t0)]
  intro i hi
  simp only [← hv, BitVec.getLsbD_setWidth]
  grind

/-! ## The characters -/

/-- What the decoder does not pass over. -/
def kept (text : Text) : Text := text.filter fun c => b64index c ≠ -1

/-- The text does not end with a character that is passed over. -/
def Ends (text : Text) : Prop := ∀ c ∈ text.getLast?, b64index c ≠ -1

instance (text : Text) : Decidable (Ends text) :=
  decidable_of_iff (text.getLast?.all fun c => decide (b64index c ≠ -1))
    (by simp [Ends, Option.all_eq_true])

theorem ends_cons {t : UInt8} {text : Text} (h : b64index t ≠ -1 ∨ text ≠ []) :
    Ends (t :: text) ↔ Ends text := by
  rcases text with _ | ⟨t', text⟩
  · simp only [ne_eq, not_true_eq_false, or_false] at h
    simp [Ends, h]
  · simp [Ends]

theorem nextC_kept {text cs E : Text} (h : kept text = cs ++ E) :
    ∃ rest, nextC cs.length text = some (cs.map b64index, rest) ∧ kept rest = E ∧
      (Ends text ↔ Ends rest) := by
  induction text generalizing cs with
  | nil =>
    obtain ⟨rfl, rfl⟩ := List.append_eq_nil_iff.mp h.symm
    exact ⟨[], rfl, rfl, .rfl⟩
  | cons t text ih =>
    rcases cs with _ | ⟨c, cs⟩
    · exact ⟨t :: text, rfl, h, .rfl⟩
    by_cases hskip : b64index t = -1
    · have htext : kept text = c :: cs ++ E := by simpa [kept, hskip] using h
      obtain ⟨rest, hnext, hE, hends⟩ := ih htext
      have hne : text ≠ [] := by
        rintro rfl
        cases htext
      refine ⟨rest, ?_, hE, (ends_cons (.inr hne)).trans hends⟩
      rw [← hnext]
      exact if_pos hskip
    · have hcons : t :: kept text = c :: (cs ++ E) := by simpa [kept, hskip] using h
      obtain ⟨rfl, htext⟩ := List.cons.inj hcons
      obtain ⟨rest, hnext, hE, hends⟩ := ih htext
      refine ⟨rest, ?_, hE, (ends_cons (.inl hskip)).trans hends⟩
      show (if _ then _ else _) = _
      rw [if_neg hskip, hnext]
      rfl

theorem nextC_kept_nil {text : Text} (h : kept text = []) : nextC 4 text = none := by
  induction text with
  | nil => rfl
  | cons t text ih =>
    by_cases hskip : b64index t = -1
    · rw [← ih (by simpa [kept, hskip] using h)]
      exact if_pos hskip
    · simp [kept, hskip] at h

theorem lb64decode_step {text rest : Text} {c : List Int} (h : nextC 4 text = some (c, rest)) :
    lb64decode text = (do
      let out ← output c
      let outs ← lb64decode rest
      return out ++ outs) := by
  have hne : text ≠ [] := by
    rintro rfl
    cases h
  rw [lb64decode, if_neg hne]
  split <;> simp_all

/-- The end of a text. -/
theorem lb64decode_kept_nil {text : Text} (h : kept text = []) :
    lb64decode text = if Ends text then .ok [] else invalid := by
  rw [lb64decode]
  by_cases hnil : text = []
  · subst hnil
    rw [if_pos rfl, if_pos (by simp [Ends])]
  have hends : ¬ Ends text := by
    intro hends
    have hlast := hends _ (List.getLast?_eq_getLast_of_ne_nil hnil)
    have hmem : text.getLast hnil ∈ kept text :=
      List.mem_filter.mpr ⟨List.getLast_mem hnil, by simpa using hlast⟩
    rw [h] at hmem
    cases hmem
  rw [if_neg hnil, if_neg hends]
  split
  · rfl
  · rename_i hnext
    rw [nextC_kept_nil h] at hnext
    cases hnext

theorem lb64decode_kept (x text : Text) (h : kept text = lb64encode x) :
    lb64decode text = if Ends text then .ok x else invalid := by
  fun_induction lb64encode x generalizing text with
  | case1 t0 t1 t2 x v ih =>
    obtain ⟨rest, hnext, hE, hends⟩ := @nextC_kept _ [_, _, _, _] _ h
    rw [lb64decode_step hnext, output_three t0 t1 t2 rfl, ih rest hE]
    by_cases hrest : Ends rest <;> simp [hends, hrest] <;> rfl
  | case2 t0 v =>
    obtain ⟨rest, hnext, hE, hends⟩ := @nextC_kept _ [_, _, _, _] _ h
    rw [lb64decode_step hnext, output_one t0 rfl, lb64decode_kept_nil hE]
    by_cases hrest : Ends rest <;> simp [hends, hrest] <;> rfl
  | case3 t0 t1 v =>
    obtain ⟨rest, hnext, hE, hends⟩ := @nextC_kept _ [_, _, _, _] _ h
    rw [lb64decode_step hnext, output_two t0 t1 rfl, lb64decode_kept_nil hE]
    by_cases hrest : Ends rest <;> simp [hends, hrest] <;> rfl
  | case4 => exact lb64decode_kept_nil h

theorem b64index_encodeChar_ne (n : BitVec 32) : b64index (encodeChar n) ≠ -1 := by
  by_cases hn : n.toNat < 64
  · rw [encodeChar, b64index_encoding n.toNat hn]
    omega
  · have hdefault : encoding.getD n.toNat '=' = '=' := by
      rw [List.getD_eq_getElem?_getD, List.getElem?_eq_none (Nat.le_of_not_lt hn)]
      rfl
    rw [encodeChar, hdefault]
    decide

theorem b64index_lb64encode (x : Text) : ∀ c ∈ lb64encode x, b64index c ≠ -1 := by
  have hpad : b64index pad ≠ -1 := by decide
  fun_induction lb64encode x <;> simp_all [b64index_encodeChar_ne]

theorem lb64decode_lb64encode (x : Text) : lb64decode (lb64encode x) = .ok x := by
  have hkept : kept (lb64encode x) = lb64encode x :=
    List.filter_eq_self.mpr fun c hc => by simpa using b64index_lb64encode x c hc
  have hends : Ends (lb64encode x) := fun c hc =>
    b64index_lb64encode x c (List.mem_of_mem_getLast? hc)
  rw [lb64decode_kept x _ hkept, if_pos hends]

theorem newline_notMem (x : Text) : 10 ∉ lb64encode x := fun h =>
  b64index_lb64encode x 10 h (by decide)

/-- The decoder gives back what was encoded. It does so from each text that has the characters of
the encoding, whatever of other characters stands between them, but fails when these are also at
the end. -/
theorem b64decode_b64encode (x text : Text) :
    lb64decode (lb64encode x) = .ok x ∧
      (kept text = lb64encode x →
        lb64decode text = if Ends text then .ok x else raise "Invalid base64 text") :=
  ⟨lb64decode_lb64encode x, lb64decode_kept x text⟩

theorem b64decode_b64encode_sample : lb64decode [77, 10, 97, 97, 33, 103] = .ok [49, 166, 160] :=
  ((b64decode_b64encode [49, 166, 160] [77, 10, 97, 97, 33, 103]).2 (by decide)).trans
    (if_pos (by decide))

end SkynetHotfix.Crypt
