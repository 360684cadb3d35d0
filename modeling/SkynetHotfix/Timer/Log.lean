import Mathlib.Data.List.Basic

/-!
# The log of a timer

What happened to a timer object, and what that says of one registration: the ticks at which it was
invoked (`invocations`), that it was unregistered (`Cancelled`) or never was, and that its `idx` was
issued for it (`Latest`) when it was asked to be unregistered (`Requested`).

The code never looks at a callback's `param`, so the runs pass the number of the registration for
it, its tag: the log can then tell apart two registrations under one `idx`.
-/

namespace SkynetHotfix.Timer

variable {N I : Type}

/-- What a run is remembered by; `tag` is the number of the registration. -/
inductive Event (N I : Type) where
  | registered (tag idx : Nat) (inc : I) (sec : N) (loop : Bool)
  | unregistered (idx : Nat)
  | invoked (tag idx : Nat) (inc : I)
deriving DecidableEq

variable {tag idx : Nat} {inc : I} {sec : N} {loop : Bool} {log es : List (Event N I)}
  {e : Event N I}

/-- What an event added to a log is behind. -/
theorem append_eq_cons {l₁ l₂ : List (Event N I)} {e' : Event N I}
    (h : log ++ [e] = l₁ ++ e' :: l₂) :
    (log = l₁ ∧ e = e' ∧ l₂ = []) ∨ ∃ l₃, l₂ = l₃ ++ [e] ∧ log = l₁ ++ e' :: l₃ := by
  rcases List.eq_nil_or_concat l₂ with rfl | ⟨l₃, e'', rfl⟩
  · obtain ⟨hl, he⟩ := List.append_inj' h rfl
    exact .inl ⟨hl, List.singleton_inj.mp he, rfl⟩
  · rw [List.concat_eq_append, ← List.cons_append, ← List.append_assoc] at h
    obtain ⟨hl, he⟩ := List.append_inj' h rfl
    obtain rfl := List.singleton_inj.mp he
    exact .inr ⟨l₃, List.concat_eq_append, hl⟩

/-! ## Invocations -/

/-- The ticks at which the callback of a registration was invoked. -/
def invocations (tag : Nat) (log : List (Event N I)) : List I :=
  log.filterMap fun
    | .invoked g _ inc => if g = tag then some inc else none
    | _ => none

theorem invocations_append (tag : Nat) (l₁ l₂ : List (Event N I)) :
    invocations tag (l₁ ++ l₂) = invocations tag l₁ ++ invocations tag l₂ :=
  List.filterMap_append

theorem invocations_eq_nil (h : ∀ idx inc, .invoked tag idx inc ∉ log) :
    invocations tag log = [] := by
  refine List.filterMap_eq_nil_iff.mpr fun e he => ?_
  cases e with
  | invoked g idx inc =>
    have hg : g ≠ tag := fun e => h idx inc (e ▸ he)
    simp [hg]
  | _ => rfl

/-! ## What was unregistered -/

/-- `unregister(idx)` has not been called since `idx` was given to `tag`. -/
def NeverUnregistered (tag idx : Nat) (log : List (Event N I)) : Prop :=
  ∀ l₁ l₂ inc sec loop, log = l₁ ++ .registered tag idx inc sec loop :: l₂ →
    .unregistered idx ∉ l₂

theorem neverUnregistered_of_not_mem (h : .unregistered idx ∉ log) :
    NeverUnregistered tag idx log :=
  fun l₁ l₂ inc sec loop e hm => h (by rw [e]; simp [hm])

theorem NeverUnregistered.of_append (h : NeverUnregistered tag idx (log ++ es)) :
    NeverUnregistered tag idx log :=
  fun l₁ l₂ inc sec loop e hm =>
    h l₁ (l₂ ++ es) inc sec loop (by rw [e]; simp) (List.mem_append_left _ hm)

theorem NeverUnregistered.not_mem (h : NeverUnregistered tag idx (log ++ es))
    (hr : .registered tag idx inc sec loop ∈ log) : .unregistered idx ∉ es := by
  obtain ⟨l₁, l₂, rfl⟩ := List.append_of_mem hr
  exact fun hm => h l₁ (l₂ ++ es) inc sec loop (by simp) (List.mem_append_right _ hm)

/-- `unregister(idx)` has returned since `idx` was given to `tag`. -/
def Cancelled (tag : Nat) (log : List (Event N I)) : Prop :=
  ∃ l₁ l₂ idx inc sec loop, log = l₁ ++ .registered tag idx inc sec loop :: l₂ ∧
    .unregistered idx ∈ l₂

theorem Cancelled.mem (h : Cancelled tag log) :
    ∃ idx inc sec loop, .registered tag idx inc sec loop ∈ log := by
  obtain ⟨l₁, l₂, idx, inc, sec, loop, rfl, -⟩ := h
  exact ⟨idx, inc, sec, loop, by simp⟩

theorem cancelled_append (h : Cancelled tag (log ++ [e])) :
    Cancelled tag log ∨ ∃ idx inc sec loop, e = .unregistered idx ∧
      .registered tag idx inc sec loop ∈ log := by
  obtain ⟨l₁, l₂, idx, inc, sec, loop, hl, hm⟩ := h
  rcases append_eq_cons hl with ⟨-, -, rfl⟩ | ⟨l₃, rfl, rfl⟩
  · cases hm
  · rcases List.mem_append.mp hm with hm | hm
    · exact .inl ⟨l₁, l₃, idx, inc, sec, loop, rfl, hm⟩
    · exact .inr ⟨idx, inc, sec, loop, (List.mem_singleton.mp hm).symm, by simp⟩

/-- What is stopped stays stopped: nothing is invoked once it has been cancelled. -/
def Final (log : List (Event N I)) : Prop :=
  ∀ l₁ l₂ tag idx inc, log = l₁ ++ .invoked tag idx inc :: l₂ → ¬ Cancelled tag l₁

theorem Final.append (h : Final log)
    (he : ∀ tag idx inc, e = .invoked tag idx inc → ¬ Cancelled tag log) : Final (log ++ [e]) := by
  intro l₁ l₂ tag idx inc hl
  rcases append_eq_cons hl with ⟨rfl, hinv, -⟩ | ⟨l₃, -, hl⟩
  · exact he _ _ _ hinv
  · exact h _ _ _ _ _ hl

/-! ## What an `idx` was issued for -/

/-- The `idx` was issued for `tag`, and for no other registration since. -/
def Latest (tag idx : Nat) (log : List (Event N I)) : Prop :=
  ∃ l₁ l₂ inc sec loop, log = l₁ ++ .registered tag idx inc sec loop :: l₂ ∧
    ∀ tag' inc' sec' loop', .registered tag' idx inc' sec' loop' ∉ l₂

/-- `unregister(idx)` was called when the `idx` was issued for `tag`. -/
def Requested (tag idx : Nat) (log : List (Event N I)) : Prop :=
  ∃ l₁ l₂, Latest tag idx l₁ ∧ log = l₁ ++ .unregistered idx :: l₂

theorem Latest.append (h : Latest tag idx log)
    (he : ∀ tag' inc sec loop, e ≠ .registered tag' idx inc sec loop) :
    Latest tag idx (log ++ [e]) := by
  obtain ⟨l₁, l₂, inc, sec, loop, rfl, hn⟩ := h
  refine ⟨l₁, l₂ ++ [e], inc, sec, loop, by simp, fun tag' inc' sec' loop' hm => ?_⟩
  rcases List.mem_append.mp hm with hm | hm
  · exact hn tag' inc' sec' loop' hm
  · exact he tag' inc' sec' loop' (List.mem_singleton.mp hm).symm

theorem latest_registered (tag idx : Nat) (inc : I) (sec : N) (loop : Bool)
    (log : List (Event N I)) : Latest tag idx (log ++ [.registered tag idx inc sec loop]) :=
  ⟨log, [], inc, sec, loop, rfl, by simp⟩

theorem Latest.requested (h : Latest tag idx log) :
    Requested tag idx (log ++ [.unregistered idx]) :=
  ⟨log, [], h, rfl⟩

theorem Requested.append (h : Requested tag idx log) (es : List (Event N I)) :
    Requested tag idx (log ++ es) := by
  obtain ⟨l₁, l₂, hl, rfl⟩ := h
  exact ⟨l₁, l₂ ++ es, hl, by simp⟩

theorem Requested.not_never (h : Requested tag idx log) : ¬ NeverUnregistered tag idx log := by
  obtain ⟨l₁, l₂, ⟨l₃, l₄, inc, sec, loop, rfl, -⟩, rfl⟩ := h
  intro hn
  exact hn l₃ (l₄ ++ .unregistered idx :: l₂) inc sec loop (by simp) (by simp)

end SkynetHotfix.Timer
