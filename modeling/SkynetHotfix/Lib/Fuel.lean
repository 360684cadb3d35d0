import Mathlib.Order.Basic

/-!
# Recursion on fuel

A recursive procedure over a state is a body that is given the procedure to
call; `Fuel.run` ties it with a bound on the depth of its calls. Its two rules
are `run_post`, what holds whenever it returns, and `run_total`, which shows by
a measure that it does; `foldlM_post`, `foldlM_rest` and `foldlM_total` are
the same for the loops of a body, and `foldlM_congr` is for two loops.
-/

namespace Fuel

universe u

variable {T E α : Type*} {S S' : Type u}

/-- `some e` is an error of the procedure, `none` stands for a lack of fuel. -/
abbrev Result (E S : Type*) := Except (Option E) S

/-- The procedure of a body, to a depth of `n` calls. -/
def run (body : (T → S → Result E S) → T → S → Result E S) : Nat → T → S → Result E S
  | 0, _, _ => .error none
  | n + 1, t, s => body (run body n) t s

theorem ok_bind (s : S) (f : S → Result E S') : (.ok s : Result E S) >>= f = f s := rfl

theorem bind_eq_ok {x : Result E S} {f : S → Result E S'} {a : S'} :
    x >>= f = .ok a ↔ ∃ s, x = .ok s ∧ f s = .ok a := by
  cases x with
  | error e => simp [bind, Except.bind]
  | ok s => simp [bind, Except.bind]

/-- What is done with a result may differ where it is none. -/
theorem bind_congr_ok {x : Result E S} {f g : S → Result E S'} (h : ∀ s, x = .ok s → f s = g s) :
    x >>= f = x >>= g := by
  cases x with
  | error => rfl
  | ok s => exact h s rfl

/-- A result that is known by what `f` makes of it. -/
theorem eq_ok_of_toOption {β : Type*} {x : Result E S} {f : S → β} {b : β}
    (hx : x.toOption.map f = some b) : ∃ s, x = .ok s ∧ f s = b := by
  obtain ⟨s, hs, hb⟩ := Option.map_eq_some_iff.mp hx
  cases x with
  | error e => cases hs
  | ok _ =>
    cases hs
    exact ⟨s, rfl, hb⟩

/-- What holds of a procedure whenever it returns: it need only be shown for the body. -/
theorem run_post {B : (T → S → Result E S) → T → S → Result E S} {P : T → S → Prop}
    {Q : T → S → S → Prop}
    (hbody : ∀ rec, (∀ t s s', P t s → rec t s = .ok s' → Q t s s') →
      ∀ t s s', P t s → B rec t s = .ok s' → Q t s s') :
    ∀ n t s s', P t s → run B n t s = .ok s' → Q t s s' := by
  intro n
  induction n with
  | zero => intro t s s' _ h; cases h
  | succ n ih => exact fun t s s' hp h => hbody _ ih t s s' hp h

/-- A procedure whose calls lower a measure returns, given as much fuel. -/
theorem run_total {B : (T → S → Result E S) → T → S → Result E S} {P : T → S → Prop}
    {Q : T → S → S → Prop} (m : T → S → Nat)
    (hbody : ∀ rec t s, P t s →
      (∀ t' s', P t' s' → m t' s' < m t s → ∃ s'', rec t' s' = .ok s'' ∧ Q t' s' s'') →
      ∃ s', B rec t s = .ok s' ∧ Q t s s') :
    ∀ n t s, P t s → m t s < n → ∃ s', run B n t s = .ok s' ∧ Q t s s' := by
  intro n
  induction n with
  | zero => intro t s _ h; omega
  | succ n ih =>
    intro t s hp h
    exact hbody _ t s hp fun t' s' hp' hlt => ih t' s' hp' (by omega)

/-- A loop keeps `P`, and what each turn achieves for its element stays. -/
theorem foldlM_post {f : S → α → Result E S} {P : S → Prop} {Q : α → S → Prop} {l : List α}
    (hf : ∀ a ∈ l, ∀ s s', P s → f s a = .ok s' → P s' ∧ Q a s' ∧ ∀ b, Q b s → Q b s')
    {s s' : S} (hs : P s) (h : l.foldlM f s = .ok s') : P s' ∧ ∀ a ∈ l, Q a s' := by
  have key : ∀ (l' : List α) (s : S), (∀ a ∈ l', a ∈ l) → P s → l'.foldlM f s = .ok s' →
      P s' ∧ (∀ a ∈ l', Q a s') ∧ ∀ b, Q b s → Q b s' := by
    intro l'
    induction l' with
    | nil =>
      intro s _ hs h
      cases h
      exact ⟨hs, by simp, fun _ => id⟩
    | cons a l' ih =>
      intro s hl hs h
      rw [List.foldlM_cons, bind_eq_ok] at h
      obtain ⟨s₁, h₁, h⟩ := h
      obtain ⟨hp, hq, hk⟩ := hf a (hl a List.mem_cons_self) s s₁ hs h₁
      obtain ⟨hp', hq', hk'⟩ := ih s₁ (fun b hb => hl b (List.mem_cons_of_mem _ hb)) hp h
      refine ⟨hp', fun b hb => ?_, fun b hb => hk' b (hk b hb)⟩
      rcases List.mem_cons.mp hb with rfl | hb
      · exact hk' b hq
      · exact hq' b hb
  obtain ⟨hp, hq, -⟩ := key l s (fun _ => id) hs h
  exact ⟨hp, hq⟩

/-- A loop by what holds of the elements that are left. -/
theorem foldlM_rest {f : S → α → Result E S} {P : List α → S → Prop}
    (hf : ∀ a l s s', P (a :: l) s → f s a = .ok s' → P l s') {l : List α} {s s' : S}
    (hs : P l s) (h : l.foldlM f s = .ok s') : P [] s' := by
  induction l generalizing s with
  | nil =>
    cases h
    exact hs
  | cons a l ih =>
    rw [List.foldlM_cons, bind_eq_ok] at h
    obtain ⟨s₁, h₁, h⟩ := h
    exact ih (hf a l s s₁ hs h₁) h

/-- Two loops are the same whose turns are, in the states that the loop comes to. -/
theorem foldlM_congr {f g : S → α → Result E S} {P : S → Prop} {l : List α}
    (hfg : ∀ a ∈ l, ∀ s, P s → f s a = g s a)
    (hg : ∀ a ∈ l, ∀ s s', P s → g s a = .ok s' → P s') {s : S} (hs : P s) :
    l.foldlM f s = l.foldlM g s := by
  induction l generalizing s with
  | nil => rfl
  | cons a l ih =>
    rw [List.foldlM_cons, List.foldlM_cons, hfg a List.mem_cons_self s hs]
    cases e : g s a with
    | error => rfl
    | ok s' =>
      exact ih (fun b hb => hfg b (List.mem_cons_of_mem _ hb))
        (fun b hb => hg b (List.mem_cons_of_mem _ hb)) (hg a List.mem_cons_self s s' hs e)

/-- A loop whose turns return, returns. -/
theorem foldlM_total {f : S → α → Result E S} {P : S → Prop} {l : List α}
    (hf : ∀ a ∈ l, ∀ s, P s → ∃ s', f s a = .ok s' ∧ P s') {s : S} (hs : P s) :
    ∃ s', l.foldlM f s = .ok s' ∧ P s' := by
  induction l generalizing s with
  | nil => exact ⟨s, rfl, hs⟩
  | cons a l ih =>
    obtain ⟨s₁, h₁, hp⟩ := hf a List.mem_cons_self s hs
    obtain ⟨s', h', hp'⟩ := ih (fun b hb => hf b (List.mem_cons_of_mem _ hb)) hp
    exact ⟨s', by rw [List.foldlM_cons, h₁]; exact h', hp'⟩

end Fuel
