import SkynetHotfix.RawUpdater.May

/-!
# What an update keeps

A property that the single writes of an update keep (`Kept`) is kept by the
loops of `update_func` and `update_table` wherever the calls they make keep it,
and by a whole run if the checks keep it too (`run_keeps`). The heap of a run
`Fits` (`fits_run`).

The lemmas `*_ok` say once what `check_updated`, `update_func` and
`update_table` have done when they return.
-/

namespace SkynetHotfix.RawUpdater

open Lua
open ModuleUpdater (State Check Answer oldUpvalue findFunc metaName)

variable {env : Env} {h : Heap} {root : Task}

/-- The writes of an update keep `P`, which its heaps need to fit. -/
structure Kept (env : Env) (h : Heap) (root : Task) (P : State → Prop) : Prop where
  fits : ∀ st, P st → Fits env h root st.heap
  set : ∀ st t k v, P st → May env h root (.stored t k v) →
    P { st with heap := st.heap.set t k v }
  setCell : ∀ st c v, P st → May env h root (.carried c v) →
    P { st with heap := st.heap.setCell c v }

theorem kept_fits (env : Env) (h : Heap) (root : Task) :
    Kept env h root fun st => Fits env h root st.heap where
  fits _ hst := hst
  set _ _ _ _ hst hs := hst.set hs
  setCell _ _ _ hst hc := hst.setCell hc

variable {rec : Task → State → Result State} {P : State → Prop} {st st' : State}

theorem oldUpvalue_of_truthy {upvalues : List (String × Nat)} {cell : Nat → Value} {x : String}
    (ht : (oldUpvalue (upvalues.map fun u => (u.1, cell u.2)) x).truthy = true) :
    ∃ c', lastUpvalue upvalues x = some c' ∧
      oldUpvalue (upvalues.map fun u => (u.1, cell u.2)) x = cell c' := by
  rw [oldUpvalue_eq] at ht ⊢
  cases hc : lastUpvalue upvalues x with
  | none => rw [hc] at ht; cases ht
  | some c' => exact ⟨c', rfl, rfl⟩

theorem updateUpvalue_keeps (K : Kept env h root P) {f g : Nat}
    (hm : May env h root (.meets (.func f g))) (he : env.Compares (.func f g))
    (hrec : ∀ t' st st', Calls env h root (.func f g) t' → P st → rec t' st = .ok st' → P st')
    {cell : Nat → Value} (hcell : ∀ c, May env h root (.cell c (cell c))) {x : String} {c : Nat}
    (hx : (x, c) ∈ h.closure f) (hst : P st)
    (hu : updateUpvalue rec ((h.closure g).map fun u => (u.1, cell u.2)) st (x, c) = .ok st') :
    P st' := by
  have hv := (K.fits st hst).mayCell c
  rcases updateUpvalue_ok hu with ⟨-, rfl⟩ | ⟨g', f', e, hf, hr⟩ | ⟨st₁, ht, hn, h₁, rfl⟩
  · exact hst
  · obtain ⟨c', hc', e'⟩ := oldUpvalue_of_truthy (x := x) (by rw [e]; rfl)
    rw [hf] at hv
    have hw := hcell c'
    rw [← e', e] at hw
    exact hrec _ st st' (.upFunc hx hc' hv hw) hst hr
  · obtain ⟨c', hc', e'⟩ := oldUpvalue_of_truthy ht
    have hw := hcell c'
    rw [← e'] at hw
    have hcarry := May.carry hm he hx hc' hv hw ht hn
    refine K.setCell st₁ c _ ?_ hcarry
    rcases h₁ with rfl | ⟨n, o, e, hn', hr⟩
    · exact hst
    · rw [hn'] at hv
      rw [e] at hw
      exact hrec _ st st₁ (.upTable hx hc' hv hw) hst hr

theorem updateField_keeps (K : Kept env h root P) {n o : Nat} {name : Value}
    (hm : May env h root (.meets (.table n o name))) (he : env.Compares (.table n o name))
    (hrec : ∀ t' st st', Calls env h root (.table n o name) t' → P st → rec t' st = .ok st' →
      P st') {k : Value} (hst : P st) (hu : updateField rec n o st k = .ok st') : P st' := by
  have hf := K.fits st hst
  have hv := hf.holds n k
  rcases updateField_ok hu with ⟨-, rfl⟩ | ⟨hn, w, hi, hw⟩
  · exact hst
  obtain ⟨p, hp, hpw⟩ := hf.index hi
  rcases hw with ⟨hty, q, hq, rfl⟩ | ⟨f, g, ef, eg, hr⟩ | ⟨n', o', en, eo, hr⟩ | ⟨-, -, -, rfl⟩
  · exact K.set st q k _ hst (.store hm he hv hn hp hpw hty (hf.walk hq))
  · rw [ef] at hv
    rw [eg] at hpw
    exact hrec _ st st' (.fieldFunc hv hp hpw) hst hr
  · rw [en] at hv
    rw [eo] at hpw
    exact hrec _ st st' (.fieldTable hv hp hpw) hst hr
  · exact hst

theorem updateMeta_keeps (K : Kept env h root P) {n o : Nat} {name : Value}
    (hrec : ∀ t' st st', Calls env h root (.table n o name) t' → P st → rec t' st = .ok st' →
      P st') (hst : P st) (hu : updateMeta rec n o name st = .ok st') : P st' := by
  have hf := K.fits st hst
  rcases updateMeta_ok hu with ⟨-, rfl⟩ | ⟨n', o', name', hn, ho, hname, hr⟩
  · exact hst
  · rw [hf.metatable] at hn ho
    exact hrec _ st st' (.metas hn ho hname) hst hr

/-! ## The checks -/

theorem checkUpdated_cases (env : Env) (new_obj old_obj : Value) (st : State) :
    (new_obj = old_obj ∧ checkUpdated env new_obj old_obj st =
      ({ st with
          log := st.log ++
            [⟨new_obj, old_obj, env.signature st.heap new_obj old_obj, .same⟩] }, true)) ∨
    (new_obj ≠ old_obj ∧ env.signature st.heap new_obj old_obj ∈ st.updated_sig ∧
      checkUpdated env new_obj old_obj st =
        ({ st with
            log := st.log ++
              [⟨new_obj, old_obj, env.signature st.heap new_obj old_obj, .already⟩] }, true)) ∨
    (new_obj ≠ old_obj ∧ env.signature st.heap new_obj old_obj ∉ st.updated_sig ∧
      checkUpdated env new_obj old_obj st =
        ({ st with
            updated_sig := env.signature st.heap new_obj old_obj :: st.updated_sig
            log := st.log ++
              [⟨new_obj, old_obj, env.signature st.heap new_obj old_obj, .fresh⟩] }, false)) := by
  unfold checkUpdated
  by_cases hsame : new_obj = old_obj
  · exact .inl ⟨hsame, if_pos hsame⟩
  by_cases hin : env.signature st.heap new_obj old_obj ∈ st.updated_sig
  · exact .inr (.inl ⟨hsame, hin, by rw [if_neg hsame, if_pos hin]⟩)
  · exact .inr (.inr ⟨hsame, hin, by rw [if_neg hsame, if_neg hin]⟩)

/-- What is compared is not one object. -/
theorem ne_of_fresh {new_obj old_obj : Value}
    (hc : checkUpdated env new_obj old_obj st = (st', false)) : new_obj ≠ old_obj := by
  intro e
  rw [checkUpdated, if_pos e] at hc
  cases hc

theorem updateFunc_ok {f g : Nat} (hu : updateFunc env rec f g st = .ok st') :
    (env.protected_ (.func g) = true ∧ st' = st) ∨
    env.protected_ (.func g) = false ∧ ∃ st₁,
      (checkUpdated env (.func f) (.func g) st = (st₁, true) ∧ st' = st₁) ∨
      (checkUpdated env (.func f) (.func g) st = (st₁, false) ∧
        (st₁.heap.closure f).foldlM
          (updateUpvalue rec ((st₁.heap.closure g).map fun u => (u.1, st₁.heap.cell u.2)))
          (st₁.record g f) = .ok st') := by
  unfold updateFunc at hu
  by_cases hp : env.protected_ (.func g) = true
  · rw [if_pos hp] at hu
    cases hu
    exact .inl ⟨hp, rfl⟩
  rw [if_neg hp] at hu
  refine .inr ⟨by simpa using hp, ?_⟩
  obtain ⟨st₁, b, e⟩ : ∃ st₁ b, checkUpdated env (.func f) (.func g) st = (st₁, b) :=
    ⟨_, _, rfl⟩
  rw [e] at hu ⊢
  refine ⟨st₁, ?_⟩
  cases b with
  | true =>
    cases hu
    exact .inl ⟨rfl, rfl⟩
  | false => exact .inr ⟨rfl, hu⟩

theorem updateTable_ok {n o : Nat} {name : Value}
    (hu : updateTable env rec n o name st = .ok st') :
    (env.protected_ (.table o) = true ∧ st' = st) ∨
    env.protected_ (.table o) = false ∧
      ((findFunc name = some true ∧ updateFields env rec n o name st = .ok st') ∨
      (findFunc name = some false ∧ ∃ st₁,
        (checkUpdated env (.table n) (.table o) st = (st₁, true) ∧
          st' = st₁) ∨
        (checkUpdated env (.table n) (.table o) st = (st₁, false) ∧
          updateFields env rec n o name st₁ = .ok st'))) := by
  unfold updateTable at hu
  by_cases hp : env.protected_ (.table o) = true
  · rw [if_pos hp] at hu
    cases hu
    exact .inl ⟨hp, rfl⟩
  rw [if_neg hp] at hu
  refine .inr ⟨by simpa using hp, ?_⟩
  cases hfind : findFunc name with
  | none => rw [hfind] at hu; cases hu
  | some b =>
    rw [hfind] at hu
    cases b with
    | true => exact .inl ⟨rfl, hu⟩
    | false =>
      refine .inr ⟨rfl, ?_⟩
      dsimp only at hu
      obtain ⟨st₁, b, e⟩ : ∃ st₁ b, checkUpdated env (.table n) (.table o) st =
        (st₁, b) := ⟨_, _, rfl⟩
      rw [e] at hu ⊢
      refine ⟨st₁, ?_⟩
      cases b with
      | true =>
        cases hu
        exact .inl ⟨rfl, rfl⟩
      | false => exact .inr ⟨rfl, hu⟩

theorem updateFields_ok {n o : Nat} {name : Value}
    (hu : updateFields env rec n o name st = .ok st') :
    ∃ st₁, (env.order st.heap n).foldlM (updateField rec n o) st = .ok st₁ ∧
      updateMeta rec n o name st₁ = .ok st' :=
  Fuel.bind_eq_ok.mp hu

theorem updateFields_keeps (K : Kept env h root P) {n o : Nat} {name : Value}
    (hm : May env h root (.meets (.table n o name))) (he : env.Compares (.table n o name))
    (hrec : ∀ t' st st', Calls env h root (.table n o name) t' → P st → rec t' st = .ok st' →
      P st') (hst : P st) (hu : updateFields env rec n o name st = .ok st') : P st' := by
  obtain ⟨st₁, hloop, hu⟩ := updateFields_ok hu
  have hst₁ : P st₁ := (Fuel.foldlM_post (Q := fun _ _ => True) (fun k _ s s' hs hk =>
    ⟨updateField_keeps K hm he hrec hs hk, trivial, fun _ => id⟩) hst hloop).1
  exact updateMeta_keeps K hrec hst₁ hu

/-- What the writes, the checks and the map keep, a run keeps. -/
theorem run_keeps (K : Kept env h root P)
    (hcheck : ∀ st v w, P st → P (checkUpdated env v w st).1)
    (hrecord : ∀ st f g, P st → May env h root (.meets (.func f g)) → env.Compares (.func f g) →
      P (st.record g f)) :
    ∀ fuel t st st', May env h root (.meets t) ∧ P st → Fuel.run (body env) fuel t st = .ok st' →
      P st' := by
  refine Fuel.run_post (P := fun t st => May env h root (.meets t) ∧ P st)
    (Q := fun _ _ st' => P st') fun rec hrec t st st' ⟨hm, hst⟩ hu => ?_
  have hcalls : env.Compares t → ∀ t' st st', Calls env h root t t' → P st →
      rec t' st = .ok st' → P st' :=
    fun he t' st st' hc hst hr => hrec t' st st' ⟨hc.meets hm he, hst⟩ hr
  cases t with
  | func f g =>
    rcases updateFunc_ok hu with ⟨-, rfl⟩ | ⟨hp, st₁, ⟨e, rfl⟩ | ⟨e, hloop⟩⟩
    · exact hst
    · have := hcheck st (.func f) (.func g) hst
      rwa [e] at this
    · have hst₁ := hcheck st (.func f) (.func g) hst
      rw [e] at hst₁
      have he : env.Compares (.func f g) := ⟨hp, fun hfg => ne_of_fresh e (congrArg _ hfg)⟩
      have hfit := K.fits st₁ hst₁
      rw [hfit.closure] at hloop
      exact (Fuel.foldlM_post (Q := fun _ _ => True) (fun u hu s s' hs hk =>
        ⟨updateUpvalue_keeps K hm he (hcalls he) hfit.mayCell hu hs hk, trivial, fun _ => id⟩)
        (hrecord st₁ f g hst₁ hm he) hloop).1
  | table n o name =>
    rcases updateTable_ok hu with
      ⟨-, rfl⟩ | ⟨hp, ⟨hfind, hu⟩ | ⟨-, st₁, ⟨e, rfl⟩ | ⟨e, hu⟩⟩⟩
    · exact hst
    · have he : env.Compares (.table n o name) := ⟨hp, .inl hfind⟩
      exact updateFields_keeps K hm he (hcalls he) hst hu
    · have := hcheck st (.table n) (.table o) hst
      rwa [e] at this
    · have hst₁ := hcheck st (.table n) (.table o) hst
      rw [e] at hst₁
      have he : env.Compares (.table n o name) :=
        ⟨hp, .inr fun hno => ne_of_fresh e (congrArg _ hno)⟩
      exact updateFields_keeps K hm he (hcalls he) hst₁ hu

/-- An update stays within its closure. -/
theorem fits_run {fuel : Nat}
    (hr : Fuel.run (body env) fuel root (State.start h) = .ok st') : Fits env h root st'.heap := by
  refine run_keeps (kept_fits env h root) ?_ (fun _ _ _ hst _ _ => hst) fuel root _ st'
    ⟨.root, .refl env h root⟩ hr
  intro st v w hst
  show Fits env h root (checkUpdated env v w st).1.heap
  rw [(checkUpdated_heap env v w st).1]
  exact hst

end SkynetHotfix.RawUpdater
