import Mathlib.Data.List.Basic

/-!
# Escapes of a url

`encodeURI` and `decodeURI` of `common/base/util.lua`, on bytes. Each `%XX` is
read back (`decodeURI_escape`), a `+` that was in the string among them; but the
`+` that stands for a space is not, so what comes back has a `+` for each
space (`decodeURI_encodeURI`).
-/

namespace SkynetHotfix.Util

variable {c : UInt8} {s rest : List UInt8} {n : Nat}

/-- `%` -/
def percent : UInt8 := 37

/-- ` ` -/
def space : UInt8 := 32

/-- `+` -/
def plus : UInt8 := 43

/-- `[%w%.%- ]` -/
def unescaped (c : UInt8) : Bool :=
  (48 ≤ c && c ≤ 57) || (65 ≤ c && c ≤ 90) || (97 ≤ c && c ≤ 122) || c == 46 || c == 45 ||
    c == space

/-- A digit of `%X` -/
def hexDigit (n : Nat) : UInt8 := if n < 10 then 48 + UInt8.ofNat n else 55 + UInt8.ofNat n

/-- `string.format("%%%02X", string.byte(c))` -/
def escape (c : UInt8) : List UInt8 :=
  [percent, hexDigit (c.toNat / 16), hexDigit (c.toNat % 16)]

/-- `encodeURI(s)`, its first result -/
def encodeURI (s : List UInt8) : List UInt8 :=
  let s := s.flatMap fun c => if unescaped c then [c] else escape c
  s.map fun c => if c = space then plus else c

/-- `%x` -/
def isxdigit (c : UInt8) : Bool :=
  (48 ≤ c && c ≤ 57) || (65 ≤ c && c ≤ 70) || (97 ≤ c && c ≤ 102)

/-- What a digit counts in `tonumber(h, 16)`. -/
def hexValue (c : UInt8) : Nat :=
  if c ≤ 57 then c.toNat - 48 else if c ≤ 70 then c.toNat - 55 else c.toNat - 87

/-- A match of `%%(%x%x)` at the start, and `string.char(tonumber(h, 16))` of it. -/
def matched : List UInt8 → Option UInt8
  | c :: a :: b :: _ =>
    if c = percent ∧ isxdigit a ∧ isxdigit b then some (UInt8.ofNat (16 * hexValue a + hexValue b))
    else none
  | _ => none

/-- The matches replaced; `skip` bytes belong to one that has been. -/
def replaceMatches : Nat → List UInt8 → List UInt8
  | _, [] => []
  | skip + 1, _ :: s => replaceMatches skip s
  | 0, c :: s =>
    match matched (c :: s) with
    | some x => x :: replaceMatches 2 s
    | none => c :: replaceMatches 0 s

/-- `decodeURI(s)` -/
def decodeURI (s : List UInt8) : List UInt8 := replaceMatches 0 s

theorem isxdigit_hexDigit (h : n < 16) : isxdigit (hexDigit n) := by
  have key : ∀ n : Fin 16, isxdigit (hexDigit n) := by decide
  exact key ⟨n, h⟩

theorem hexValue_hexDigit (h : n < 16) : hexValue (hexDigit n) = n := by
  have key : ∀ n : Fin 16, hexValue (hexDigit n) = n := by decide
  exact key ⟨n, h⟩

/-- An escape is read back. -/
theorem decodeURI_escape (c : UInt8) (rest : List UInt8) :
    decodeURI (escape c ++ rest) = c :: decodeURI rest := by
  have hc := UInt8.toNat_lt c
  have hhi : c.toNat / 16 < 16 := by omega
  have hlo : c.toNat % 16 < 16 := by omega
  have hsum : 16 * (c.toNat / 16) + c.toNat % 16 = c.toNat := Nat.div_add_mod _ _
  have hm : matched (escape c ++ rest) = some c := by
    simp only [escape, List.cons_append, List.nil_append, matched]
    rw [if_pos ⟨trivial, isxdigit_hexDigit hhi, isxdigit_hexDigit hlo⟩, hexValue_hexDigit hhi,
      hexValue_hexDigit hlo, hsum, UInt8.ofNat_toNat]
  rw [decodeURI]
  show replaceMatches 0 (percent :: _) = _
  rw [replaceMatches]
  show (match matched (escape c ++ rest) with
    | some x => x :: replaceMatches 2 _
    | none => _) = _
  rw [hm]
  rfl

/-- So is what is not a `%`. -/
theorem decodeURI_cons (h : c ≠ percent) (rest : List UInt8) :
    decodeURI (c :: rest) = c :: decodeURI rest := by
  have hm : matched (c :: rest) = none := by
    rw [matched.eq_def]
    split
    · rename_i heq
      rw [if_neg]
      exact fun h' => h ((List.cons.inj heq).1.trans h'.1)
    · rfl
  rw [decodeURI, replaceMatches, hm]
  rfl

theorem hexDigit_ne_space (h : n < 16) : hexDigit n ≠ space := by
  have key : ∀ n : Fin 16, hexDigit n ≠ space := by decide
  exact key ⟨n, h⟩

theorem unescaped_percent : unescaped percent = false := by decide

/-- What comes back has a `+` for each space. -/
theorem decodeURI_encodeURI (s : List UInt8) :
    decodeURI (encodeURI s) = s.map fun c => if c = space then plus else c := by
  induction s with
  | nil => rfl
  | cons c s ih =>
    rw [List.map_cons, ← ih]
    simp only [encodeURI, List.flatMap_cons, List.map_append]
    by_cases hc : unescaped c
    · have hne : c ≠ percent := by
        rintro rfl
        rw [unescaped_percent] at hc
        cases hc
      have hne' : (if c = space then plus else c) ≠ percent := by
        split
        · decide
        · exact hne
      rw [if_pos hc]
      exact decodeURI_cons hne' _
    · have hspace : c ≠ space := by
        rintro rfl
        exact hc (by decide)
      have hbyte := UInt8.toNat_lt c
      have hescape : (escape c).map (fun c => if c = space then plus else c) = escape c := by
        simp only [escape, List.map_cons, List.map_nil]
        rw [if_neg (by decide), if_neg (hexDigit_ne_space (by omega)),
          if_neg (hexDigit_ne_space (by omega))]
      rw [if_neg hc, if_neg hspace, hescape]
      exact decodeURI_escape c _

/-- The string comes back just when there is no space in it. -/
theorem decodeURI_encodeURI_iff (s : List UInt8) :
    decodeURI (encodeURI s) = s ↔ space ∉ s := by
  rw [decodeURI_encodeURI]
  constructor
  · intro h hs
    have hmap : ∀ c ∈ s, (if c = space then plus else c) = id c :=
      List.map_eq_map_iff.mp (h.trans (List.map_id s).symm)
    exact absurd (hmap space hs) (by decide)
  · intro h
    refine (List.map_congr_left fun c hc => if_neg ?_).trans (List.map_id s)
    rintro rfl
    exact h hc

/-- `a b` comes back as `a+b`. -/
theorem decodeURI_encodeURI_space :
    ¬ decodeURI (encodeURI [97, 32, 98]) = [97, 32, 98] := by
  decide

end SkynetHotfix.Util
