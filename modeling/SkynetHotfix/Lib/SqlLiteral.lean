import Mathlib.Data.List.Basic

/-!
# Quoted string literals

The quoted strings of SQL as MySQL reads them: `''` is a quote, and a backslash
escapes the next character. What an escaped character stands for is a
parameter, `escaped`.

A text in which each quote is doubled (`doubled`) is read back if it has no
backslash (`body_doubled`). With one it is not, whatever `escaped` is: the
backslash takes a quote of a pair, or something denotes less than it is long
(`of_body_doubled`).
-/

namespace SqlLiteral

variable {escaped : UInt8 → UInt8} {s d rest : List UInt8} {c : UInt8}

/-- `'` -/
def singleQuote : UInt8 := 39

/-- `\\` -/
def backslash : UInt8 := 92

/-- What a literal denotes behind its first quote, and what is behind its last; `none` if it is
left open. -/
def body (escaped : UInt8 → UInt8) : List UInt8 → Option (List UInt8 × List UInt8)
  | [] => none
  | c :: s =>
    if c = singleQuote then
      match s with
      | [] => some ([], [])
      | c' :: s =>
        if c' = singleQuote then (body escaped s).map fun (d, rest) => (singleQuote :: d, rest)
        else some ([], c' :: s)
    else if c = backslash then
      match s with
      | [] => none
      | c' :: s => (body escaped s).map fun (d, rest) => (escaped c' :: d, rest)
    else (body escaped s).map fun (d, rest) => (c :: d, rest)

/-- What a text denotes that begins with a literal, and what is behind that. -/
def literal (escaped : UInt8 → UInt8) : List UInt8 → Option (List UInt8 × List UInt8)
  | [] => none
  | c :: s => if c = singleQuote then body escaped s else none

/-- The text with each quote doubled. -/
def doubled (s : List UInt8) : List UInt8 :=
  s.flatMap fun c => if c = singleQuote then [singleQuote, singleQuote] else [c]

theorem quote_ne_backslash : singleQuote ≠ backslash := by decide

@[simp] theorem doubled_nil : doubled [] = [] := rfl

theorem doubled_cons_quote (s : List UInt8) :
    doubled (singleQuote :: s) = singleQuote :: singleQuote :: doubled s := rfl

theorem doubled_cons (h : c ≠ singleQuote) : doubled (c :: s) = c :: doubled s := by
  rw [doubled, List.flatMap_cons, if_neg h]
  rfl

theorem body_quote_quote (s : List UInt8) : body escaped (singleQuote :: singleQuote :: s) =
    (body escaped s).map fun (d, rest) => (singleQuote :: d, rest) := by
  rw [body, if_pos rfl]
  simp

theorem body_quote (h : c ≠ singleQuote) (s : List UInt8) :
    body escaped (singleQuote :: c :: s) = some ([], c :: s) := by
  rw [body, if_pos rfl]
  simp [h]

theorem body_backslash (c : UInt8) (s : List UInt8) : body escaped (backslash :: c :: s) =
    (body escaped s).map fun (d, rest) => (escaped c :: d, rest) := by
  rw [body, if_neg quote_ne_backslash.symm, if_pos rfl]

theorem body_cons (h : c ≠ singleQuote) (h' : c ≠ backslash) (s : List UInt8) :
    body escaped (c :: s) = (body escaped s).map fun (d, rest) => (c :: d, rest) := by
  rw [body.eq_def]
  simp only [if_neg h, if_neg h']

/-- A text without a backslash is read back. -/
theorem body_doubled (h : backslash ∉ s) :
    body escaped (doubled s ++ [singleQuote]) = some (s, []) := by
  induction s with
  | nil => rfl
  | cons c s ih =>
    obtain ⟨hc, hs⟩ := not_or.mp (mt List.mem_cons.mpr h)
    by_cases hq : c = singleQuote
    · subst hq
      rw [doubled_cons_quote, List.cons_append, List.cons_append, body_quote_quote, ih hs]
      rfl
    · rw [doubled_cons hq, List.cons_append, body_cons hq (Ne.symm hc), ih hs]
      rfl

/-- With the first quote of a pair gone the literal ends early or not at all. -/
theorem body_quote_doubled (d : List UInt8) :
    body escaped (singleQuote :: doubled s ++ [singleQuote]) ≠ some (d, []) := by
  induction s generalizing d with
  | nil =>
    show body escaped [singleQuote, singleQuote] ≠ _
    rw [body_quote_quote]
    simp [body]
  | cons c s ih =>
    by_cases hq : c = singleQuote
    · subst hq
      intro h
      rw [doubled_cons_quote, List.cons_append, List.cons_append, List.cons_append,
        body_quote_quote] at h
      obtain ⟨⟨d', rest⟩, h, e⟩ := Option.map_eq_some_iff.mp h
      obtain ⟨-, rfl⟩ := Prod.mk.inj e
      exact ih d' h
    · rw [doubled_cons hq, List.cons_append, List.cons_append, body_quote hq]
      simp

/-- A text that is read to its end has no backslash, or denotes less than it is long. -/
theorem of_body_doubled (h : body escaped (doubled s ++ [singleQuote]) = some (d, [])) :
    d.length ≤ s.length ∧ (backslash ∈ s → d.length < s.length) := by
  induction hn : s.length using Nat.strongRecOn generalizing s d with
  | ind n ih =>
    subst hn
    have ih : ∀ (s' : List UInt8) {d' : List UInt8}, s'.length < s.length →
        body escaped (doubled s' ++ [singleQuote]) = some (d', []) →
        d'.length ≤ s'.length ∧ (backslash ∈ s' → d'.length < s'.length) := fun _ _ hlt h =>
      ih _ hlt h rfl
    cases s with
    | nil =>
      cases h
      simp
    | cons c s =>
      by_cases hq : c = singleQuote
      · subst hq
        rw [doubled_cons_quote, List.cons_append, List.cons_append, body_quote_quote] at h
        obtain ⟨⟨d', rest⟩, h, e⟩ := Option.map_eq_some_iff.mp h
        obtain ⟨rfl, rfl⟩ := Prod.mk.inj e
        obtain ⟨hle, hlt⟩ := ih s (Nat.lt_succ_self _) h
        refine ⟨Nat.succ_le_succ hle, fun hb => Nat.succ_lt_succ (hlt ?_)⟩
        exact (List.mem_cons.mp hb).resolve_left quote_ne_backslash.symm
      · rw [doubled_cons hq, List.cons_append] at h
        by_cases hb : c = backslash
        · subst hb
          cases s with
          | nil =>
            rw [doubled_nil, List.nil_append, body_backslash] at h
            simp [body] at h
          | cons c' s =>
            by_cases hq' : c' = singleQuote
            · subst hq'
              rw [doubled_cons_quote, List.cons_append, body_backslash] at h
              obtain ⟨⟨d', rest⟩, h, e⟩ := Option.map_eq_some_iff.mp h
              obtain ⟨-, rfl⟩ := Prod.mk.inj e
              exact absurd h (body_quote_doubled d')
            · rw [doubled_cons hq', List.cons_append, body_backslash] at h
              obtain ⟨⟨d', rest⟩, h, e⟩ := Option.map_eq_some_iff.mp h
              obtain ⟨rfl, rfl⟩ := Prod.mk.inj e
              have hle := (ih s (by simp only [List.length_cons]; omega) h).1
              simp only [List.length_cons]
              exact ⟨by omega, fun _ => by omega⟩
        · rw [body_cons hq hb] at h
          obtain ⟨⟨d', rest⟩, h, e⟩ := Option.map_eq_some_iff.mp h
          obtain ⟨rfl, rfl⟩ := Prod.mk.inj e
          obtain ⟨hle, hlt⟩ := ih s (Nat.lt_succ_self _) h
          refine ⟨Nat.succ_le_succ hle, fun hmem => Nat.succ_lt_succ (hlt ?_)⟩
          exact (List.mem_cons.mp hmem).resolve_left (Ne.symm hb)

/-- A text in quotes is one literal that denotes it, just when it has no backslash. -/
theorem literal_doubled_iff :
    literal escaped (singleQuote :: (doubled s ++ [singleQuote])) = some (s, []) ↔ backslash ∉ s := by
  rw [literal, if_pos rfl]
  exact ⟨fun h hb => Nat.lt_irrefl _ ((of_body_doubled h).2 hb), body_doubled⟩

end SqlLiteral
