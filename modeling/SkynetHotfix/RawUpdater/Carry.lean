import SkynetHotfix.RawUpdater.Frame
import SkynetHotfix.RawUpdater.Total

/-!
# Old data is kept

The upvalues of a new function get the values of the old function's by name, and
the fields of old tables are only written where the type is another. `if
old_value then` loses `false`, though, and `nil` too where the new function has
a value (`false_lost`). `keeps_of_carries` says that, where no old value is lost so
and no two updates carry values against each other (`Carries`), all is kept.

An entry of the map is `Done` once its new function has what it should: no
later write of the update takes that away (`Done.later`).
-/

namespace SkynetHotfix.RawUpdater

open Lua
open ModuleUpdater (State oldUpvalue)

variable {env : Env} {h : Heap} {root : Task}

/-- The new function has what the old one has in its upvalues of the same names, functions
apart. -/
def KeepsUpvalues (h : Heap) (f g : Nat) (h' : Heap) : Prop :=
  ∀ x c c', (x, c) ∈ h.closure f → (x, c') ∈ h.closure g → (h.cell c').type ≠ .function →
    h'.cell c = h.cell c'

/-- A field that is of one type in both versions, and neither function nor table. -/
def SameType (h : Heap) (n o : Nat) (k : Value) : Prop :=
  h.get o k ≠ .nil ∧ (h.get n k).type = (h.get o k).type ∧ (h.get o k).type ≠ .function ∧
    (h.get o k).type ≠ .table

/-- An old upvalue is neither `false` nor `nil`, unless the new one has its value already, and
nothing else is carried to either; nothing else is stored to a field of one type. -/
structure Carries (env : Env) (h : Heap) (root : Task) : Prop where
  truthy : ∀ f g x c c', May env h root (.meets (.func f g)) → env.Compares (.func f g) →
    (x, c) ∈ h.closure f → (x, c') ∈ h.closure g → (h.cell c').type ≠ .function →
    (h.cell c').truthy = true ∨ h.cell c = h.cell c'
  carried : ∀ f g x c c' w, May env h root (.meets (.func f g)) → env.Compares (.func f g) →
    (x, c) ∈ h.closure f → (x, c') ∈ h.closure g → (h.cell c').type ≠ .function →
    May env h root (.carried c w) → w = h.cell c'
  last : ∀ f g x c c' c₀, May env h root (.meets (.func f g)) → env.Compares (.func f g) →
    (x, c) ∈ h.closure f → (x, c') ∈ h.closure g → (h.cell c').type ≠ .function →
    lastUpvalue (h.closure g) x = some c₀ →
    h.cell c₀ = h.cell c' ∧ ∀ w, May env h root (.carried c₀ w) → w = h.cell c'
  field : ∀ n o name k v, May env h root (.meets (.table n o name)) → n ≠ o → SameType h n o k →
    May env h root (.stored o k v) → v = h.get o k

/-! ## Entries that are done -/

/-- The heap has other cells only by what may be carried. -/
def Later (env : Env) (h : Heap) (root : Task) (h₁ h₂ : Heap) : Prop :=
  ∀ c, h₂.cell c = h₁.cell c ∨ May env h root (.carried c (h₂.cell c))

theorem Later.trans {h₁ h₂ h₃ : Heap} (h₁₂ : Later env h root h₁ h₂)
    (h₂₃ : Later env h root h₂ h₃) : Later env h root h₁ h₃ := by
  intro c
  rcases h₂₃ c with e | hc
  · rw [e]; exact h₁₂ c
  · exact .inr hc

structure Done (env : Env) (h : Heap) (root : Task) (g f : Nat) (h' : Heap) : Prop where
  meets : May env h root (.meets (.func f g))
  compares : env.Compares (.func f g)
  keeps : KeepsUpvalues h f g h'

theorem Done.later (C : Carries env h root) {g f : Nat} {h₁ h₂ : Heap}
    (hd : Done env h root g f h₁) (hl : Later env h root h₁ h₂) : Done env h root g f h₂ where
  meets := hd.meets
  compares := hd.compares
  keeps := by
    intro x c c' hx hx' hty
    rcases hl c with e | hc
    · rw [e]; exact hd.keeps x c c' hx hx' hty
    · exact C.carried f g x c c' _ hd.meets hd.compares hx hx' hty hc

/-- Since `st`, the entries that the map has got are done. -/
structure Since (env : Env) (h : Heap) (root : Task) (st st' : State) : Prop where
  fits : Fits env h root st'.heap
  later : Later env h root st.heap st'.heap
  entries : ∀ g f, st'.updated_func_map.lookup g = some f →
    st.updated_func_map.lookup g = some f ∨ Done env h root g f st'.heap

namespace Since

variable {st st₁ st₂ : State}

theorem refl (hf : Fits env h root st.heap) : Since env h root st st :=
  ⟨hf, fun _ => .inl rfl, fun _ _ => .inl⟩

theorem trans (C : Carries env h root) (h₁ : Since env h root st st₁)
    (h₂ : Since env h root st₁ st₂) : Since env h root st st₂ where
  fits := h₂.fits
  later := h₁.later.trans h₂.later
  entries g f he := by
    rcases h₂.entries g f he with he | hd
    · exact (h₁.entries g f he).imp_right fun hd => hd.later C h₂.later
    · exact .inr hd

theorem kept (C : Carries env h root) (st : State) :
    Kept env h root (Since env h root st) where
  fits _ hs := hs.fits
  set _ _ _ _ hs hm := hs.trans C ⟨hs.fits.set hm, fun _ => .inl rfl, fun _ _ => .inl⟩
  setCell st₁ c v hs hm := by
    refine hs.trans C ⟨hs.fits.setCell hm, fun c' => ?_, fun _ _ => .inl⟩
    rw [Heap.cell_setCell]
    split <;> rename_i e
    · rw [e]; exact .inr hm
    · exact .inl rfl

end Since

/-! ## A run -/

variable {rec : Task → State → Result State}

/-- One upvalue: it has the old value then. -/
theorem updateUpvalue_done (C : Carries env h root) {f g : Nat}
    (hm : May env h root (.meets (.func f g))) (he : env.Compares (.func f g))
    {h₁ : Heap} (hf₁ : Fits env h root h₁) {x : String} {c c' : Nat} (hx : (x, c) ∈ h.closure f)
    (hx' : (x, c') ∈ h.closure g) (hty : (h.cell c').type ≠ .function) {st st' : State}
    (hf : Fits env h root st.heap)
    (hu : updateUpvalue rec ((h.closure g).map fun u => (u.1, h₁.cell u.2)) st (x, c) = .ok st') :
    st'.heap.cell c = h.cell c' := by
  have hold : oldUpvalue ((h.closure g).map fun u => (u.1, h₁.cell u.2)) x = h.cell c' := by
    rw [oldUpvalue_eq]
    cases hc₀ : lastUpvalue (h.closure g) x with
    | none =>
      rw [lastUpvalue, List.lookup_eq_none_iff] at hc₀
      simpa using hc₀ (x, c') (List.mem_reverse.mpr hx')
    | some c₀ =>
      obtain ⟨e, hw⟩ := C.last f g x c c' c₀ hm he hx hx' hty hc₀
      show h₁.cell c₀ = _
      rcases hf₁.cell c₀ with e' | hc
      · rw [e', e]
      · exact hw _ hc
  rcases updateUpvalue_ok hu with ⟨ht, rfl⟩ | ⟨g', f', e, -, -⟩ | ⟨st₁, -, -, -, rfl⟩
  · rw [hold] at ht
    have e := (C.truthy f g x c c' hm he hx hx' hty).resolve_left (by simp [ht])
    rcases hf.cell c with e' | hc
    · rw [e', e]
    · exact C.carried f g x c c' _ hm he hx hx' hty hc
  · rw [hold] at e
    rw [e] at hty
    exact absurd rfl hty
  · show (st₁.heap.setCell c _).cell c = _
    rw [Heap.cell_setCell, if_pos rfl, hold]

theorem run_since (C : Carries env h root) :
    ∀ fuel t st st', May env h root (.meets t) ∧ Fits env h root st.heap →
      Fuel.run (body env) fuel t st = .ok st' → Since env h root st st' := by
  refine Fuel.run_post (P := fun t st => May env h root (.meets t) ∧ Fits env h root st.heap)
    (Q := fun _ st st' => Since env h root st st') fun rec hrec t st st' ⟨hm, hf⟩ hu => ?_
  -- The calls of the body, seen from any state `st₀` it has been in.
  have hcalls : env.Compares t → ∀ st₀ t' st st', Calls env h root t t' →
      Since env h root st₀ st → rec t' st = .ok st' → Since env h root st₀ st' :=
    fun he st₀ t' st st' hc hst hr =>
      hst.trans C (hrec t' st st' ⟨hc.meets hm he, hst.fits⟩ hr)
  cases t with
  | func f g =>
    rcases updateFunc_ok hu with ⟨-, rfl⟩ | ⟨hp, st₁, hu⟩
    · exact .refl hf
    have hc := checkUpdated_heap env (.func f) (.func g) st
    rcases hu with ⟨e, rfl⟩ | ⟨e, hloop⟩
    · rw [e] at hc
      exact ⟨hc.1 ▸ hf, fun _ => .inl (by rw [hc.1]), fun _ _ => by rw [hc.2]; exact .inl⟩
    have he : env.Compares (.func f g) := ⟨hp, fun hfg => ne_of_fresh e (congrArg _ hfg)⟩
    rw [e] at hc
    have hf₁ : Fits env h root st₁.heap := hc.1 ▸ hf
    rw [hf₁.closure] at hloop
    obtain ⟨hs, hq⟩ := Fuel.foldlM_post (P := Since env h root (st₁.record g f))
      (Q := fun u s => u ∈ h.closure f → ∀ c', (u.1, c') ∈ h.closure g →
        (h.cell c').type ≠ .function → s.heap.cell u.2 = h.cell c')
      (fun u hu s s' hs hk => by
        have hs' := updateUpvalue_keeps (Since.kept C s) hm he (hcalls he s) hf₁.mayCell hu
          (.refl hs.fits) hk
        refine ⟨hs.trans C hs', fun _ c' hx' hty =>
          updateUpvalue_done C hm he hf₁ hu hx' hty hs.fits hk, fun b hb hbf c' hx' hty => ?_⟩
        rcases hs'.later b.2 with e | hc
        · rw [e]; exact hb hbf c' hx' hty
        · exact C.carried f g b.1 b.2 c' _ hm he hbf hx' hty hc) (.refl hf₁) hloop
    refine ⟨hs.fits, hc.1 ▸ hs.later, fun g' f' hl => ?_⟩
    rcases hs.entries g' f' hl with hl | hd
    · by_cases eg : g' = g
      · subst eg
        have ef : f' = f := by
          simpa [State.record, eq_comm] using hl
        subst ef
        exact .inr ⟨hm, he, fun x c c' hx hx' hty => hq (x, c) hx hx c' hx' hty⟩
      · simp only [State.record] at hl
        rw [AList.lookup_insert_ne eg, hc.2] at hl
        exact .inl hl
    · exact .inr hd
  | table n o name =>
    have hc := checkUpdated_heap env (.table n) (.table o) st
    rcases updateTable_ok hu with
      ⟨-, rfl⟩ | ⟨hp, ⟨hfind, hu⟩ | ⟨-, st₁, ⟨e, rfl⟩ | ⟨e, hu⟩⟩⟩
    · exact .refl hf
    · have he : env.Compares (.table n o name) := ⟨hp, .inl hfind⟩
      exact updateFields_keeps (Since.kept C st) hm he (hcalls he st) (.refl hf) hu
    · rw [e] at hc
      exact ⟨hc.1 ▸ hf, fun _ => .inl (by rw [hc.1]), fun _ _ => by rw [hc.2]; exact .inl⟩
    · rw [e] at hc
      have he : env.Compares (.table n o name) :=
        ⟨hp, .inr fun hno => ne_of_fresh e (congrArg _ hno)⟩
      have hst₁ : Since env h root st st₁ :=
        ⟨hc.1 ▸ hf, fun _ => .inl (by rw [hc.1]), fun _ _ => by rw [hc.2]; exact .inl⟩
      exact updateFields_keeps (Since.kept C st) hm he (hcalls he st) hst₁ hu

/-- An update that carries without conflict keeps the old data: the upvalues of the functions that
it replaces, and the fields of one type. -/
theorem keeps_of_carries (C : Carries env h root) {fuel : Nat} {st : State}
    (hr : Fuel.run (body env) fuel root (State.start h) = .ok st) :
    (∀ g f, st.updated_func_map.lookup g = some f → KeepsUpvalues h f g st.heap) ∧
      ∀ n o name k, May env h root (.meets (.table n o name)) → n ≠ o → SameType h n o k →
        st.heap.get o k = h.get o k := by
  have hs := run_since C fuel root _ st ⟨.root, .refl env h root⟩ hr
  refine ⟨fun g f hl => ?_, fun n o name k hm hno hty => ?_⟩
  · rcases hs.entries g f hl with hl | hd
    · simp [State.start] at hl
    · exact hd.keeps
  · rcases hs.fits.get o k with e | hst
    · exact e
    · exact C.field n o name k _ hm hno hty hst

theorem oneUpvalue_carries :
    Carries env (oneUpvalue (.num 5) (.num 1)) (.table 2 1 (.str "m")) where
  truthy f g x c c' hm _ hx hx' _ := by
    rcases oneUpvalue_may hm with e | e <;> cases e
    obtain ⟨-, rfl, -⟩ := oneUpvalue_mem hx'
    exact .inl rfl
  carried f g x c c' w hm _ hx hx' _ hc := by
    rcases oneUpvalue_may hm with e | e <;> cases e
    obtain ⟨-, rfl, -⟩ := oneUpvalue_mem hx'
    exact (oneUpvalue_may hc).2
  last f g x c c' c₀ hm _ hx hx' _ hc₀ := by
    rcases oneUpvalue_may hm with e | e <;> cases e
    obtain ⟨rfl, rfl, -⟩ := oneUpvalue_mem hx'
    have e : lastUpvalue ((oneUpvalue (.num 5) (.num 1)).closure 1) "a" = some 1 := by decide
    cases e.symm.trans hc₀
    exact ⟨rfl, fun w hw => absurd (oneUpvalue_may hw).1 (by decide)⟩
  field n o name k v _ _ _ hs := (oneUpvalue_may hs).elim

end SkynetHotfix.RawUpdater
