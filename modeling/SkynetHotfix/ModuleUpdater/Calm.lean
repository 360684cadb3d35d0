import SkynetHotfix.RawUpdater.Frame

/-!
# Updates that are not interfered with

Where the code that an update calls writes nothing and raises nothing (`Calm`),
and `old_table[key]` and `old_table[key] = value` come to no metamethod that is a
function (`Chains`), an update is the one of `RawUpdater`
(`updateLoadedModule_eq`).

Both are asked of all heaps that `Fits` admits, that is, of what the update may
make of the heap it starts from.
-/

namespace SkynetHotfix.ModuleUpdater

open Lua RawUpdater

/-- What is left of an environment where no code runs. -/
def Env.raw (env : Env) (text : Heap → Value → String) : RawUpdater.Env where
  protected_ := env.protected_
  loaded := env.loaded
  order := env.order
  order_perm := env.order_perm
  text := text

def Task.raw : Task → RawUpdater.Task
  | .func new_func old_func _ _ => .func new_func old_func
  | .table new_table old_table name _ => .table new_table old_table name

def Task.name : Task → Value
  | .func _ _ name _ => name
  | .table _ _ name _ => name

/-- The `log_debug` of the table `t` writes nothing and raises nothing. -/
def Mute (R : Runtime) (t : Nat) (h : Heap) : Prop :=
  ∀ msg_str, ∃ log_debug values,
    R.index Heap.maxHops t (.str "log_debug") h = .ok (log_debug, h) ∧
    R.call log_debug [.str msg_str] h = .ok (values, h)

section

variable (env : Env) (text : Heap → Value → String) (h : Heap) (root : RawUpdater.Task)

/-- The values that the update may hand to `tostring`: what is checked, and what is logged. -/
inductive Prints : Value → Prop
  | checked {t v} : May (env.raw text) h root (.meets t) → env.protected_ t.objs.2 = false →
      v = t.objs.1 ∨ v = t.objs.2 → Prints v
  | field {n o name k v p w u} : May (env.raw text) h root (.meets (.table n o name)) →
      (env.raw text).Compares (.table n o name) → May (env.raw text) h root (.holds n k v) →
      v ≠ .nil → May (env.raw text) h root (.stops "__index" o k p) →
      May (env.raw text) h root (.holds p k w) → v.type ≠ w.type → u = v ∨ u = w → Prints u
  | upvalue {f g x c c' v w u} : May (env.raw text) h root (.meets (.func f g)) →
      (env.raw text).Compares (.func f g) → (x, c) ∈ h.closure f →
      lastUpvalue (h.closure g) x = some c' → May (env.raw text) h root (.cell c v) →
      May (env.raw text) h root (.cell c' w) → u = v ∨ u = w → Prints u

/-- The keys that the update may hand to `string.format`. -/
def Named (k : Value) : Prop :=
  ∃ n o name v, May (env.raw text) h root (.meets (.table n o name)) ∧
    (env.raw text).Compares (.table n o name) ∧ May (env.raw text) h root (.holds n k v) ∧ v ≠ .nil

/-- The code that the update calls does not interfere: `tostring` gives a text, the keys have one
too, two tables that are compared are equal only if they are one, `pairs` goes through their fields,
and the log is silent; and no write is seen of any of these. -/
structure Calm : Prop where
  tostring : ∀ h' v, Fits (env.raw text) h root h' → Prints env text h root v →
    env.tostring v h' = .ok (text h' v, h')
  names : ∀ h' k, Fits (env.raw text) h root h' → Named env text h root k →
    ∃ s, env.tolstring k h' = .ok (s, h')
  eq : ∀ h' n o name, Fits (env.raw text) h root h' →
    May (env.raw text) h root (.meets (.table n o name)) → env.protected_ (.table o) = false →
    env.eq (.table n) (.table o) h' = .ok (decide (n = o), h')
  pairs : ∀ h' n o name, Fits (env.raw text) h root h' →
    May (env.raw text) h root (.meets (.table n o name)) →
    (env.raw text).Compares (.table n o name) → h'.metafield n "__pairs" = .nil
  log_debug : ∀ h', Fits (env.raw text) h root h' → Mute env.toRuntime env.module h'

end

/-- The lookups and the assignments in an old table come to an end at a table. -/
structure Chains (env : RawUpdater.Env) (h : Heap) (root : RawUpdater.Task) : Prop where
  index : ∀ h' n o name k v, Fits env h root h' → May env h root (.meets (.table n o name)) →
    env.Compares (.table n o name) → May env h root (.holds n k v) → v ≠ .nil →
    ∃ p, h'.walk "__index" Heap.maxHops o k = some p
  newindex : ∀ h' n o name k v p w, Fits env h root h' →
    May env h root (.meets (.table n o name)) → env.Compares (.table n o name) →
    May env h root (.holds n k v) → v ≠ .nil → May env h root (.stops "__index" o k p) →
    May env h root (.holds p k w) → v.type ≠ w.type →
    ∃ q, h'.walk "__newindex" Heap.maxHops o k = some q

variable {env : Env} {text : Heap → Value → String} {h : Heap} {root : RawUpdater.Task}
  {st : State}

/-! ## The calls are not seen -/

theorem Calm.logDebug_eq (hc : Calm env text h root) (hf : Fits (env.raw text) h root st.heap)
    {message : Heap → Result (String × Heap)} {s : String}
    (hm : message st.heap = .ok (s, st.heap)) : logDebug env message st = .ok st := by
  obtain ⟨log_debug, values, hindex, hcall⟩ := hc.log_debug st.heap hf s
  simp only [logDebug, hindex, hm, hcall, Fuel.ok_bind]

/-- What is handed to `string.format` for a call has a text. -/
def Formats (env : Env) (text : Heap → Value → String) (h : Heap) (root : RawUpdater.Task)
    (name : Value) : Prop :=
  ∀ h', Fits (env.raw text) h root h' → ∃ s, env.tolstring name h' = .ok (s, h')

theorem formats_str (s : String) : Formats env text h root (.str s) := fun _ _ => ⟨s, rfl⟩

theorem formats_of_findFunc {name : Value} {b : Bool} (hn : findFunc name = some b) :
    Formats env text h root name := by
  intro h' _
  cases name with
  | str s => exact ⟨s, rfl⟩
  | num n => exact ⟨toString n, rfl⟩
  | _ => cases hn

/-- A check of two objects that are `==` only if they are one. -/
theorem Calm.checkUpdated_eq (hc : Calm env text h root) (hf : Fits (env.raw text) h root st.heap)
    {v w name : Value} (hv : Prints env text h root v) (hw : Prints env text h root w)
    (heq : env.eq v w st.heap = .ok (decide (v = w), st.heap))
    (hname : Formats env text h root name) (deep : String) :
    checkUpdated env v w name deep st =
      .ok ((RawUpdater.checkUpdated (env.raw text) v w st).2,
        (RawUpdater.checkUpdated (env.raw text) v w st).1) := by
  obtain ⟨s, hs⟩ := hname st.heap hf
  have hv := hc.tostring st.heap v hf hv
  have hw := hc.tostring st.heap w hf hw
  have hlog : logDebug env (updateText env deep name ("new(" ++ text st.heap v ++ ") old(" ++
      text st.heap w ++ ")")) st = .ok st :=
    hc.logDebug_eq hf (by rw [updateText, hs, Fuel.ok_bind])
  have hanswer : ∀ (log : List Check) (s : String),
      logDebug env (fun heap => .ok (s, heap)) { st with log } = .ok { st with log } := by
    intro log s
    have hf' : Fits (env.raw text) h root ({ st with log } : State).heap := hf
    exact hc.logDebug_eq hf' rfl
  simp only [checkUpdated, hv, hw, Fuel.ok_bind, hlog, heq]
  rcases checkUpdated_cases (env.raw text) v w st with ⟨he, e⟩ | ⟨he, hin, e⟩ | ⟨he, hin, e⟩ <;>
    rw [e]
  · rw [if_pos (by simpa using he), hanswer, Fuel.ok_bind]
    rfl
  · have hin : "new(" ++ text st.heap v ++ ") old(" ++ text st.heap w ++ ")" ∈ st.updated_sig := hin
    rw [if_neg (by simpa using he), if_pos hin, hanswer, Fuel.ok_bind]
    rfl
  · have hin : "new(" ++ text st.heap v ++ ") old(" ++ text st.heap w ++ ")" ∉ st.updated_sig := hin
    rw [if_neg (by simpa using he), if_neg hin]
    rfl

/-! ## The bodies -/

/-- The calls of a body do what those of the raw one do. -/
def Agrees (env : Env) (text : Heap → Value → String) (h : Heap) (root : RawUpdater.Task)
    (rec : Task → State → Result State) (rec' : RawUpdater.Task → State → Result State) : Prop :=
  ∀ t st, May (env.raw text) h root (.meets t.raw) → Formats env text h root t.name →
    Fits (env.raw text) h root st.heap → rec t st = rec' t.raw st

variable {rec : Task → State → Result State} {rec' : RawUpdater.Task → State → Result State}

theorem updateUpvalue_eq (hc : Calm env text h root) (hrec : Agrees env text h root rec rec')
    {f g : Nat} (hm : May (env.raw text) h root (.meets (.func f g)))
    (he : (env.raw text).Compares (.func f g)) {cell : Nat → Value}
    (hcell : ∀ c, May (env.raw text) h root (.cell c (cell c))) {u : String × Nat}
    (hu : u ∈ h.closure f) (deep : String) (hf : Fits (env.raw text) h root st.heap) :
    updateUpvalue env rec ((h.closure g).map fun u => (u.1, cell u.2)) deep st u =
      RawUpdater.updateUpvalue rec' ((h.closure g).map fun u => (u.1, cell u.2)) st u := by
  obtain ⟨x, c⟩ := u
  have hv := hf.mayCell c
  by_cases ht : (oldUpvalue ((h.closure g).map fun u => (u.1, cell u.2)) x).truthy = true
  swap
  · simp only [updateUpvalue, RawUpdater.updateUpvalue, if_neg ht]
  obtain ⟨c', hc', e⟩ := oldUpvalue_of_truthy ht
  have hw := hcell c'
  simp only [updateUpvalue, RawUpdater.updateUpvalue]
  rw [e] at ht ⊢
  rw [if_pos ht, if_pos ht]
  generalize hvalue : st.heap.cell c = v at hv
  generalize cell c' = w at ht hw
  have hprint : ∀ u', u' = v ∨ u' = w → Prints env text h root u' := fun u' hu' =>
    .upvalue hm he hu hc' hv hw hu'
  -- what is carried over is logged
  have hlog : ¬ (w.type = .function ∧ v.type = .function) →
      logDebug env (setupvalueText env deep x v w) { st with heap := st.heap.setCell c w } =
        .ok { st with heap := st.heap.setCell c w } := by
    intro hn
    have hf' : Fits (env.raw text) h root ({ st with heap := st.heap.setCell c w } : State).heap :=
      hf.setCell (.carry hm he hu hc' hv hw ht hn)
    have hv' := hc.tostring _ v hf' (hprint v (.inl rfl))
    have hw' := hc.tostring _ w hf' (hprint w (.inr rfl))
    exact hc.logDebug_eq hf' (by simp only [setupvalueText, hv', hw', Fuel.ok_bind]; rfl)
  by_cases hty : w.type ≠ v.type
  · rw [if_pos hty, if_pos hty]
    exact hlog fun e => hty (e.1.trans e.2.symm)
  rw [if_neg hty, if_neg hty]
  cases w with
  | func g' =>
    cases v with
    | func f' => exact hrec _ st (.upFunc hm he hu hc' hv hw) (formats_str x) hf
    | _ => exact absurd (by simp [Value.type]) hty
  | table o =>
    cases v with
    | table n =>
      have hr := hrec (.table n o (.str x) deep) st (.upTable hm he hu hc' hv hw) (formats_str x) hf
      dsimp only
      rw [hr]
      rfl
    | _ => exact absurd (by simp [Value.type]) hty
  | _ => exact hlog fun e => by simp [Value.type] at e

theorem updateField_eq (hc : Calm env text h root) (hch : Chains (env.raw text) h root)
    (hrec : Agrees env text h root rec rec') {n o : Nat} {name : Value}
    (hm : May (env.raw text) h root (.meets (.table n o name)))
    (he : (env.raw text).Compares (.table n o name)) (deep : String) (k : Value)
    (hf : Fits (env.raw text) h root st.heap) :
    (if st.heap.get n k = .nil then .ok st
      else updateField env rec o deep k (st.heap.get n k) st) =
      RawUpdater.updateField rec' n o st k := by
  have hv := hf.holds n k
  simp only [RawUpdater.updateField]
  generalize st.heap.get n k = v at hv
  by_cases hn : v = .nil
  · rw [if_pos hn, if_pos hn]
  rw [if_neg hn, if_neg hn]
  obtain ⟨p, hp⟩ := hch.index st.heap n o name k v hf hm he hv hn
  have hstop := hf.walk hp
  have hw := hf.holds p k
  rw [updateField, Runtime.index_of_walk hp, Heap.index, hp, Option.map_some, Fuel.ok_bind]
  generalize st.heap.get p k = w at hw
  dsimp only
  by_cases hty : v.type ≠ w.type
  · obtain ⟨q, hq⟩ := hch.newindex st.heap n o name k v p w hf hm he hv hn hstop hw hty
    rw [if_pos hty, if_pos hty, Runtime.newindex_of_walk hq, Heap.newindex, hq, Option.map_some,
      Fuel.ok_bind]
    have hf' : Fits (env.raw text) h root ({ st with heap := st.heap.set q k v } : State).heap :=
      hf.set (.store hm he hv hn hstop hw hty (hf.walk hq))
    have hprint : ∀ u, u = v ∨ u = w → Prints env text h root u := fun u hu =>
      .field hm he hv hn hstop hw hty hu
    have hv' := hc.tostring _ v hf' (hprint v (.inl rfl))
    have hw' := hc.tostring _ w hf' (hprint w (.inr rfl))
    obtain ⟨s, hs⟩ := hc.names _ k hf' ⟨n, o, name, v, hm, he, hv, hn⟩
    exact hc.logDebug_eq hf' (by simp only [fieldText, hv', hw', hs, Fuel.ok_bind]; rfl)
  rw [if_neg hty, if_neg hty]
  have hname : Formats env text h root k := fun h' hf' =>
    hc.names h' k hf' ⟨n, o, name, v, hm, he, hv, hn⟩
  cases v with
  | func f =>
    cases w with
    | func g => exact hrec _ st (.fieldFunc hm he hv hstop hw) hname hf
    | _ => exact absurd (by simp [Value.type]) hty
  | table n' =>
    cases w with
    | table o' => exact hrec _ st (.fieldTable hm he hv hstop hw) hname hf
    | _ => exact absurd (by simp [Value.type]) hty
  | _ => rfl

theorem updateMeta_eq (hrec : Agrees env text h root rec rec') {n o : Nat} {name : Value}
    (hm : May (env.raw text) h root (.meets (.table n o name)))
    (he : (env.raw text).Compares (.table n o name)) (deep : String)
    (hf : Fits (env.raw text) h root st.heap) :
    updateMeta rec n o name deep st = RawUpdater.updateMeta rec' n o name st := by
  simp only [updateMeta, RawUpdater.updateMeta]
  cases ho : st.heap.metatable o with
  | none => rfl
  | some o' =>
    cases hn : st.heap.metatable n with
    | none => rfl
    | some n' =>
      dsimp only
      cases hname : metaName name with
      | none => rfl
      | some name' =>
        rw [hf.metatable] at hn ho
        have hformat : Formats env text h root name' := by
          cases name <;> cases hname <;> exact formats_str _
        exact hrec _ st (.metas hm he hn ho hname) hformat hf

/-- The calls of a raw body keep the heap within the closure. -/
def Keeps (env : RawUpdater.Env) (h : Heap) (root : RawUpdater.Task)
    (rec' : RawUpdater.Task → State → Result State) : Prop :=
  ∀ t st st', May env h root (.meets t) → Fits env h root st.heap → rec' t st = .ok st' →
    Fits env h root st'.heap

theorem updateFields_eq (hc : Calm env text h root) (hch : Chains (env.raw text) h root)
    (hrec : Agrees env text h root rec rec') (hkeep : Keeps (env.raw text) h root rec')
    {n o : Nat} {name : Value} (hm : May (env.raw text) h root (.meets (.table n o name)))
    (he : (env.raw text).Compares (.table n o name)) (deep : String)
    (hf : Fits (env.raw text) h root st.heap) :
    updateFields env rec n o name deep st =
      RawUpdater.updateFields (env.raw text) rec' n o name st := by
  have hcalls : ∀ t' st st', Calls (env.raw text) h root (.table n o name) t' →
      Fits (env.raw text) h root st.heap → rec' t' st = .ok st' →
      Fits (env.raw text) h root st'.heap :=
    fun t' st st' hcall hf hr => hkeep t' st st' (hcall.meets hm he) hf hr
  have hturn : ∀ k st st', Fits (env.raw text) h root st.heap →
      RawUpdater.updateField rec' n o st k = .ok st' → Fits (env.raw text) h root st'.heap :=
    fun k st st' hf hr => updateField_keeps (kept_fits _ h root) hm he hcalls hf hr
  have hloop := Fuel.foldlM_congr (P := fun st : State => Fits (env.raw text) h root st.heap)
    (l := env.order st.heap n)
    (fun k _ st hf => updateField_eq hc hch hrec hm he (deep ++ "  ") k hf)
    (fun k _ st st' hf hr => hturn k st st' hf hr) hf
  rw [updateFields, RawUpdater.updateFields, Runtime.forPairs, hc.pairs st.heap n o name hf hm he]
  dsimp only
  rw [hloop]
  refine Fuel.bind_congr_ok fun st₁ hst₁ => ?_
  have hf₁ : Fits (env.raw text) h root st₁.heap := (Fuel.foldlM_post (Q := fun _ _ => True)
    (fun k _ st st' hf hr => ⟨hturn k st st' hf hr, trivial, fun _ => id⟩) hf hst₁).1
  exact updateMeta_eq hrec hm he (deep ++ "  ") hf₁

theorem updateFunc_eq (hc : Calm env text h root) (hrec : Agrees env text h root rec rec')
    (hkeep : Keeps (env.raw text) h root rec') {f g : Nat}
    (hm : May (env.raw text) h root (.meets (.func f g))) {name : Value}
    (hname : Formats env text h root name) (deep : String)
    (hf : Fits (env.raw text) h root st.heap) :
    updateFunc env rec f g name deep st = RawUpdater.updateFunc (env.raw text) rec' f g st := by
  unfold updateFunc RawUpdater.updateFunc
  by_cases hp : env.protected_ (.func g) = true
  · rw [if_pos hp, if_pos (show (env.raw text).protected_ (.func g) = true from hp)]
  rw [if_neg hp, if_neg (show ¬ (env.raw text).protected_ (.func g) = true from hp)]
  rw [Bool.not_eq_true] at hp
  have hcheck := hc.checkUpdated_eq hf (.checked hm hp (.inl rfl)) (.checked hm hp (.inr rfl))
    rfl hname deep
  have hheap := (checkUpdated_heap (env.raw text) (.func f) (.func g) st).1
  dsimp only [RawUpdater.Task.objs] at hcheck
  rw [hcheck, Fuel.ok_bind]
  cases e : RawUpdater.checkUpdated (env.raw text) (.func f) (.func g) st with
  | mk st₁ updated =>
    rw [e] at hheap
    cases updated with
    | true => rfl
    | false =>
      have hf₁ : Fits (env.raw text) h root st₁.heap := by
        rw [show st₁.heap = st.heap from hheap]
        exact hf
      have he : (env.raw text).Compares (.func f g) :=
        ⟨hp, fun hfg => ne_of_fresh e (congrArg _ hfg)⟩
      have hcalls : ∀ t' st st', Calls (env.raw text) h root (.func f g) t' →
          Fits (env.raw text) h root st.heap → rec' t' st = .ok st' →
          Fits (env.raw text) h root st'.heap :=
        fun t' st st' hcall hf hr => hkeep t' st st' (hcall.meets hm he) hf hr
      dsimp only
      rw [State.record_heap, hf₁.closure]
      exact Fuel.foldlM_congr (P := fun st : State => Fits (env.raw text) h root st.heap)
        (fun u hu st hf => updateUpvalue_eq hc hrec hm he hf₁.mayCell hu (deep ++ "  ") hf)
        (fun u hu st st' hf hr => updateUpvalue_keeps (kept_fits _ h root) hm he hcalls
          hf₁.mayCell hu hf hr) hf₁

theorem updateTable_eq (hc : Calm env text h root) (hch : Chains (env.raw text) h root)
    (hrec : Agrees env text h root rec rec') (hkeep : Keeps (env.raw text) h root rec')
    {n o : Nat} {name : Value} (hm : May (env.raw text) h root (.meets (.table n o name)))
    (deep : String) (hf : Fits (env.raw text) h root st.heap) :
    updateTable env rec n o name deep st =
      RawUpdater.updateTable (env.raw text) rec' n o name st := by
  unfold updateTable RawUpdater.updateTable
  by_cases hp : env.protected_ (.table o) = true
  · rw [if_pos hp, if_pos (show (env.raw text).protected_ (.table o) = true from hp)]
  rw [if_neg hp, if_neg (show ¬ (env.raw text).protected_ (.table o) = true from hp)]
  rw [Bool.not_eq_true] at hp
  cases hfind : findFunc name with
  | none => rfl
  | some b =>
    cases b with
    | true => exact updateFields_eq hc hch hrec hkeep hm ⟨hp, .inl hfind⟩ deep hf
    | false =>
      have heq : env.eq (.table n) (.table o) st.heap =
          .ok (decide ((.table n : Value) = .table o), st.heap) := by
        rw [hc.eq st.heap n o name hf hm hp]
        simp
      have hcheck := hc.checkUpdated_eq hf (.checked hm hp (.inl rfl)) (.checked hm hp (.inr rfl))
        heq (formats_of_findFunc hfind) deep
      have hheap := (checkUpdated_heap (env.raw text) (.table n) (.table o) st).1
      dsimp only [RawUpdater.Task.objs] at hcheck ⊢
      rw [hcheck, Fuel.ok_bind]
      cases e : RawUpdater.checkUpdated (env.raw text) (.table n) (.table o) st with
      | mk st₁ updated =>
        rw [e] at hheap
        cases updated with
        | true => rfl
        | false =>
          have hf₁ : Fits (env.raw text) h root st₁.heap := by
            rw [show st₁.heap = st.heap from hheap]
            exact hf
          exact updateFields_eq hc hch hrec hkeep hm
            ⟨hp, .inr fun hno => ne_of_fresh e (congrArg _ hno)⟩ deep hf₁

/-! ## The update -/

theorem run_eq (hc : Calm env text h root) (hch : Chains (env.raw text) h root) (fuel : Nat) :
    Agrees env text h root (Fuel.run (body env) fuel)
      (Fuel.run (RawUpdater.body (env.raw text)) fuel) := by
  have hkeep : ∀ n, Keeps (env.raw text) h root (Fuel.run (RawUpdater.body (env.raw text)) n) := by
    intro n t st st' hm hf hr
    refine run_keeps (kept_fits _ h root) (fun st v w hst => ?_) (fun _ _ _ hst _ _ => hst) n t st
      st' ⟨hm, hf⟩ hr
    show Fits (env.raw text) h root (RawUpdater.checkUpdated (env.raw text) v w st).1.heap
    rw [(checkUpdated_heap (env.raw text) v w st).1]
    exact hst
  induction fuel with
  | zero => exact fun _ _ _ _ _ => rfl
  | succ fuel ih =>
    intro t st hm hname hf
    cases t with
    | func f g name deep => exact updateFunc_eq hc ih (hkeep fuel) hm hname deep hf
    | table n o name deep => exact updateTable_eq hc hch ih (hkeep fuel) hm deep hf

variable {module_name : String} {new_obj : Value} {fuel : Nat}

/-- A lookup that comes to no function. -/
theorem index_of_isSome {t : Nat} {k v : Value} (hi : h.index t k = some v) (R : Runtime) :
    R.index Heap.maxHops t k h = .ok (v, h) := by
  obtain ⟨p, hp, rfl⟩ := Option.map_eq_some_iff.mp hi
  exact Runtime.index_of_walk hp

/-- The update of what is compared. -/
theorem updateLoadedModule_eq (hroot : firstTask (env.raw text) module_name new_obj h = some root)
    (hc : Calm env text h root) (hch : Chains (env.raw text) h root) :
    updateLoadedModule env fuel module_name new_obj h =
      (Fuel.run (RawUpdater.body (env.raw text)) fuel root (State.start h)).map fun st =>
        { st with updated_sig := [] } := by
  rw [updateLoadedModule, updateLoadedModule2]
  have hrun : ∀ t : Task, t.raw = root → t.name = .str module_name →
      (Fuel.run (body env) fuel t (State.start h) >>= fun st =>
        .ok { st with updated_sig := [] }) =
      (Fuel.run (RawUpdater.body (env.raw text)) fuel root (State.start h)).map fun st =>
        { st with updated_sig := [] } := by
    rintro t rfl hname
    rw [run_eq hc hch fuel t (State.start h) .root (hname ▸ formats_str module_name) (.refl _ h _)]
    cases Fuel.run (RawUpdater.body (env.raw text)) fuel t.raw (State.start h) <;> rfl
  unfold firstTask at hroot
  split at hroot <;> cases hroot <;> rename_i hold <;>
    rw [if_neg Value.noConfusion, State.start_heap,
      index_of_isSome (t := env.loaded) hold env.toRuntime, Fuel.ok_bind]
  · exact hrun (.table _ _ _ _) rfl rfl
  · exact hrun (.func _ _ _ _) rfl rfl

/-- What the update of a compared module leaves. -/
theorem run_of_updated {st' : State}
    (hroot : firstTask (env.raw text) module_name new_obj h = some root)
    (hc : Calm env text h root) (hch : Chains (env.raw text) h root)
    (hu : updateLoadedModule env fuel module_name new_obj h = .ok st') :
    ∃ st, Fuel.run (RawUpdater.body (env.raw text)) fuel root (State.start h) = .ok st ∧
      st' = { st with updated_sig := [] } := by
  rw [updateLoadedModule_eq hroot hc hch] at hu
  cases e : Fuel.run (RawUpdater.body (env.raw text)) fuel root (State.start h) with
  | error => rw [e] at hu; cases hu
  | ok st =>
    rw [e] at hu
    cases hu
    exact ⟨st, rfl, rfl⟩

/-- Nothing is written or raised where the module is replaced. -/
structure Silent (env : Env) (h : Heap) (new_obj old_obj : Value) : Prop where
  old_text : ∃ s, env.tostring old_obj h = .ok (s, h)
  new_text : ∃ s, env.tostring new_obj h = .ok (s, h)
  log_debug : Mute env.toRuntime env.module h

/-- What is not compared is replaced. -/
theorem updateLoadedModule_eq_replace {old_obj : Value} {q : Nat}
    (hroot : firstTask (env.raw text) module_name new_obj h = none) (hnew : new_obj ≠ .nil)
    (hold : h.index env.loaded (.str module_name) = some old_obj)
    (hs : Silent env h new_obj old_obj)
    (hq : h.walk "__newindex" Heap.maxHops env.loaded (.str module_name) = some q) :
    updateLoadedModule env fuel module_name new_obj h =
      .ok (State.start (h.set q (.str module_name) new_obj)) := by
  obtain ⟨s, hold_text⟩ := hs.old_text
  obtain ⟨s', hnew_text⟩ := hs.new_text
  have hreplace : replaceModule env module_name old_obj new_obj (State.start h) =
      .ok (State.start (h.set q (.str module_name) new_obj)) := by
    obtain ⟨log_debug, values, hindex, hcall⟩ := hs.log_debug
      ("Directly replace module: old(" ++ s ++ ") -> new(" ++ s' ++ ")")
    simp only [replaceModule, replaceText, logDebug, State.start_heap, hindex, hold_text, hnew_text,
      hcall, Fuel.ok_bind, Runtime.newindex_of_walk hq]
    rfl
  unfold firstTask at hroot
  rw [updateLoadedModule, updateLoadedModule2, if_neg hnew, State.start_heap,
    index_of_isSome hold env.toRuntime, Fuel.ok_bind]
  have hold : h.index (env.raw text).loaded (.str module_name) = some old_obj := hold
  rw [hold] at hroot
  cases new_obj <;> cases old_obj <;> first
    | (cases hroot; done)
    | (dsimp only
       rw [show ({ State.start h with heap := h } : State) = State.start h from rfl, hreplace]
       rfl)

end SkynetHotfix.ModuleUpdater
