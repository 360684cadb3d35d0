import SkynetHotfix.RawUpdater.Basic

/-!
# What an update may meet and write

`May env h root` is the flow-insensitive closure of an update that starts at
`root` in the heap `h`: the calls it may make, the fields and cells it may
write and what these may hold. It is a fact about `h` alone. An update stays
within it: the heap it works on always `Fits` (`fits_run`).

The lemmas `*_ok` say once what each piece of an update that returns has done.
-/

namespace SkynetHotfix.RawUpdater

open Lua
open ModuleUpdater (State Check Answer oldUpvalue findFunc metaName)

inductive Fact
  | meets (task : Task)
  | holds (t : Nat) (k v : Value)
  | stored (t : Nat) (k v : Value)
  | stops (event : String) (t : Nat) (k : Value) (p : Nat)
  | cell (c : Nat) (v : Value)
  | carried (c : Nat) (v : Value)

/-- The call does not end before its loop: its old object is not protected, and not the new one. -/
def Env.Compares (env : Env) : Task → Prop
  | .func f g => env.protected_ (.func g) = false ∧ f ≠ g
  | .table n o name => env.protected_ (.table o) = false ∧ (findFunc name = some true ∨ n ≠ o)

/-- The cell of the last upvalue of a name. -/
def lastUpvalue (upvalues : List (String × Nat)) (name : String) : Option Nat :=
  upvalues.reverse.lookup name

inductive May (env : Env) (h : Heap) (root : Task) : Fact → Prop
  | root : May env h root (.meets root)
  | init (t k) : May env h root (.holds t k (h.get t k))
  | stored {t k v} : May env h root (.stored t k v) → May env h root (.holds t k v)
  | cell (c) : May env h root (.cell c (h.cell c))
  | carried {c v} : May env h root (.carried c v) → May env h root (.cell c v)
  | stopHere {event t k v} : May env h root (.holds t k v) → v ≠ .nil →
      May env h root (.stops event t k t)
  | stopBare {event t k} : h.metatable t = none → May env h root (.stops event t k t)
  | stopMeta {event t k m} : h.metatable t = some m → May env h root (.holds m (.str event) .nil) →
      May env h root (.stops event t k t)
  | hop {event t k m p q} : May env h root (.holds t k .nil) → h.metatable t = some m →
      May env h root (.holds m (.str event) (.table p)) → May env h root (.stops event p k q) →
      May env h root (.stops event t k q)
  | store {n o name k v p w q} : May env h root (.meets (.table n o name)) →
      env.Compares (.table n o name) → May env h root (.holds n k v) → v ≠ .nil →
      May env h root (.stops "__index" o k p) → May env h root (.holds p k w) → v.type ≠ w.type →
      May env h root (.stops "__newindex" o k q) → May env h root (.stored q k v)
  | fieldFunc {n o name k f p g} : May env h root (.meets (.table n o name)) →
      env.Compares (.table n o name) → May env h root (.holds n k (.func f)) →
      May env h root (.stops "__index" o k p) → May env h root (.holds p k (.func g)) →
      May env h root (.meets (.func f g))
  | fieldTable {n o name k n' p o'} : May env h root (.meets (.table n o name)) →
      env.Compares (.table n o name) → May env h root (.holds n k (.table n')) →
      May env h root (.stops "__index" o k p) → May env h root (.holds p k (.table o')) →
      May env h root (.meets (.table n' o' k))
  | metas {n o name n' o' name'} : May env h root (.meets (.table n o name)) →
      env.Compares (.table n o name) → h.metatable n = some n' → h.metatable o = some o' →
      metaName name = some name' → May env h root (.meets (.table n' o' name'))
  | upFunc {f g x c c' f' g'} : May env h root (.meets (.func f g)) → env.Compares (.func f g) →
      (x, c) ∈ h.closure f → lastUpvalue (h.closure g) x = some c' →
      May env h root (.cell c (.func f')) → May env h root (.cell c' (.func g')) →
      May env h root (.meets (.func f' g'))
  | upTable {f g x c c' n o} : May env h root (.meets (.func f g)) → env.Compares (.func f g) →
      (x, c) ∈ h.closure f → lastUpvalue (h.closure g) x = some c' →
      May env h root (.cell c (.table n)) → May env h root (.cell c' (.table o)) →
      May env h root (.meets (.table n o (.str x)))
  | carry {f g x c c' v w} : May env h root (.meets (.func f g)) → env.Compares (.func f g) →
      (x, c) ∈ h.closure f → lastUpvalue (h.closure g) x = some c' →
      May env h root (.cell c v) → May env h root (.cell c' w) → w.truthy = true →
      ¬ (w.type = .function ∧ v.type = .function) → May env h root (.carried c w)

variable {env : Env} {h : Heap} {root : Task}

theorem May.ne_nil_of_stored {t : Nat} {k v : Value} (hm : May env h root (.stored t k v)) :
    v ≠ .nil := by
  cases hm; assumption

/-- The calls that the body of a call may make. -/
inductive Calls (env : Env) (h : Heap) (root : Task) : Task → Task → Prop
  | fieldFunc {n o name k f p g} : May env h root (.holds n k (.func f)) →
      May env h root (.stops "__index" o k p) → May env h root (.holds p k (.func g)) →
      Calls env h root (.table n o name) (.func f g)
  | fieldTable {n o name k n' p o'} : May env h root (.holds n k (.table n')) →
      May env h root (.stops "__index" o k p) → May env h root (.holds p k (.table o')) →
      Calls env h root (.table n o name) (.table n' o' k)
  | metas {n o name n' o' name'} : h.metatable n = some n' → h.metatable o = some o' →
      metaName name = some name' → Calls env h root (.table n o name) (.table n' o' name')
  | upFunc {f g x c c' f' g'} : (x, c) ∈ h.closure f → lastUpvalue (h.closure g) x = some c' →
      May env h root (.cell c (.func f')) → May env h root (.cell c' (.func g')) →
      Calls env h root (.func f g) (.func f' g')
  | upTable {f g x c c' n o} : (x, c) ∈ h.closure f → lastUpvalue (h.closure g) x = some c' →
      May env h root (.cell c (.table n)) → May env h root (.cell c' (.table o)) →
      Calls env h root (.func f g) (.table n o (.str x))

theorem Calls.meets {t t' : Task} (hc : Calls env h root t t') (hm : May env h root (.meets t))
    (he : env.Compares t) : May env h root (.meets t') := by
  cases hc with
  | fieldFunc h₁ h₂ h₃ => exact .fieldFunc hm he h₁ h₂ h₃
  | fieldTable h₁ h₂ h₃ => exact .fieldTable hm he h₁ h₂ h₃
  | metas h₁ h₂ h₃ => exact .metas hm he h₁ h₂ h₃
  | upFunc h₁ h₂ h₃ h₄ => exact .upFunc hm he h₁ h₂ h₃ h₄
  | upTable h₁ h₂ h₃ h₄ => exact .upTable hm he h₁ h₂ h₃ h₄

/-! ## Heaps within the closure -/

/-- The heap differs from `h` by what may be written. -/
structure Fits (env : Env) (h : Heap) (root : Task) (h' : Heap) : Prop where
  closure : h'.closure = h.closure
  size : h'.size = h.size
  metatable : ∀ t, h'.metatable t = h.metatable t
  get : ∀ t k, h'.get t k = h.get t k ∨ May env h root (.stored t k (h'.get t k))
  cell : ∀ c, h'.cell c = h.cell c ∨ May env h root (.carried c (h'.cell c))
  untouched : ∀ t, (∀ k v, ¬ May env h root (.stored t k v)) → h'.table t = h.table t

namespace Fits

variable {h' : Heap}

theorem refl (env : Env) (h : Heap) (root : Task) : Fits env h root h :=
  ⟨rfl, rfl, fun _ => rfl, fun _ _ => .inl rfl, fun _ => .inl rfl, fun _ _ => rfl⟩

theorem holds (hf : Fits env h root h') (t : Nat) (k : Value) :
    May env h root (.holds t k (h'.get t k)) := by
  rcases hf.get t k with e | hm
  · rw [e]; exact .init t k
  · exact .stored hm

theorem mayCell (hf : Fits env h root h') (c : Nat) : May env h root (.cell c (h'.cell c)) := by
  rcases hf.cell c with e | hm
  · rw [e]; exact .cell c
  · exact .carried hm

/-- No field is ever removed. -/
theorem ne_nil (hf : Fits env h root h') {t : Nat} {k : Value} (hk : h.get t k ≠ .nil) :
    h'.get t k ≠ .nil := by
  rcases hf.get t k with e | hm
  · rwa [e]
  · exact hm.ne_nil_of_stored

theorem set (hf : Fits env h root h') {t : Nat} {k v : Value}
    (hm : May env h root (.stored t k v)) : Fits env h root (h'.set t k v) where
  closure := hf.closure
  size := hf.size
  metatable t' := by rw [Heap.metatable_set]; exact hf.metatable t'
  get t' k' := by
    rw [Heap.get_set]
    split <;> rename_i e
    · rw [e.1, e.2]; exact .inr hm
    · exact hf.get t' k'
  cell c := hf.cell c
  untouched t' hn := by
    have e : t' ≠ t := fun e => hn k v (e ▸ hm)
    rw [← hf.untouched t' hn]
    exact Function.update_of_ne e _ _

theorem setCell (hf : Fits env h root h') {c : Nat} {v : Value}
    (hm : May env h root (.carried c v)) : Fits env h root (h'.setCell c v) where
  closure := hf.closure
  size := hf.size
  metatable := hf.metatable
  get := hf.get
  cell c' := by
    rw [Heap.cell_setCell]
    split <;> rename_i e
    · rw [e]; exact .inr hm
    · exact hf.cell c'
  untouched := hf.untouched

theorem walk (hf : Fits env h root h') {event : String} {k : Value} {hops : Nat} {t p : Nat}
    (hw : h'.walk event hops t k = some p) : May env h root (.stops event t k p) := by
  induction hops generalizing t with
  | zero =>
    rw [Heap.walk] at hw
    split at hw <;> rename_i hk <;> cases hw
    exact .stopHere (hf.holds _ k) hk
  | succ hops ih =>
    rw [Heap.walk] at hw
    split at hw <;> rename_i hk
    · cases hw
      exact .stopHere (hf.holds _ k) hk
    have hk : May env h root (.holds t k .nil) := not_not.mp hk ▸ hf.holds t k
    simp only [hf.metatable] at hw
    split at hw
    · rename_i hm
      cases hw
      exact .stopBare hm
    · rename_i m hm
      have hmm := hf.holds m (.str event)
      split at hw
      · rename_i e
        cases hw
        exact .stopMeta hm (e ▸ hmm)
      · rename_i q e
        exact .hop hk hm (e ▸ hmm) (ih hw)
      · cases hw

theorem index (hf : Fits env h root h') {t : Nat} {k w : Value} (hi : h'.index t k = some w) :
    ∃ p, May env h root (.stops "__index" t k p) ∧ May env h root (.holds p k w) := by
  obtain ⟨p, hp, rfl⟩ := Option.map_eq_some_iff.mp hi
  exact ⟨p, hf.walk hp, hf.holds p k⟩

end Fits

/-! ## What the pieces do -/

theorem oldUpvalue_eq (upvalues : List (String × Nat)) (cell : Nat → Value) (x : String) :
    oldUpvalue (upvalues.map fun u => (u.1, cell u.2)) x =
      ((lastUpvalue upvalues x).map cell).getD .nil := by
  have key : ∀ l : List (String × Nat),
      (l.map fun u => (u.1, cell u.2)).lookup x = (l.lookup x).map cell := by
    intro l
    induction l with
    | nil => rfl
    | cons u l ih =>
      rw [List.map_cons, List.lookup_cons, List.lookup_cons, ih]
      cases x == u.1 <;> rfl
  rw [oldUpvalue, lastUpvalue, ← List.map_reverse, key]

theorem checkUpdated_heap (env : Env) (new_obj old_obj : Value) (st : State) :
    (checkUpdated env new_obj old_obj st).1.heap = st.heap ∧
      (checkUpdated env new_obj old_obj st).1.updated_func_map = st.updated_func_map := by
  simp only [checkUpdated]
  split
  · exact ⟨rfl, rfl⟩
  · split <;> exact ⟨rfl, rfl⟩

theorem updateUpvalue_ok {rec : Task → State → Result State} {m : List (String × Value)}
    {st st' : State} {x : String} {c : Nat} (hu : updateUpvalue rec m st (x, c) = .ok st') :
    ((oldUpvalue m x).truthy = false ∧ st' = st) ∨
    (∃ g f, oldUpvalue m x = .func g ∧ st.heap.cell c = .func f ∧ rec (.func f g) st = .ok st') ∨
    (∃ st₁, (oldUpvalue m x).truthy = true ∧
      ¬ ((oldUpvalue m x).type = .function ∧ (st.heap.cell c).type = .function) ∧
      (st₁ = st ∨ ∃ n o, oldUpvalue m x = .table o ∧ st.heap.cell c = .table n ∧
        rec (.table n o (.str x)) st = .ok st₁) ∧
      st' = { st₁ with heap := st₁.heap.setCell c (oldUpvalue m x) }) := by
  simp only [updateUpvalue] at hu
  generalize oldUpvalue m x = old at hu ⊢
  generalize hv : st.heap.cell c = value at hu ⊢
  by_cases ht : old.truthy = true
  swap
  · rw [if_neg ht] at hu
    cases hu
    exact .inl ⟨by simpa using ht, rfl⟩
  rw [if_pos ht] at hu
  by_cases hty : old.type ≠ value.type
  · rw [if_pos hty] at hu
    cases hu
    exact .inr (.inr ⟨st, ht, fun e => hty (e.1.trans e.2.symm), .inl rfl, rfl⟩)
  rw [if_neg hty] at hu
  split at hu
  · exact .inr (.inl ⟨_, _, rfl, rfl, hu⟩)
  · rw [Fuel.bind_eq_ok] at hu
    obtain ⟨st₁, h₁, hu⟩ := hu
    cases hu
    exact .inr (.inr ⟨st₁, ht, by simp [Value.type], .inr ⟨_, _, rfl, rfl, h₁⟩, rfl⟩)
  · rename_i hff _
    cases hu
    refine .inr (.inr ⟨st, ht, fun e => ?_, .inl rfl, rfl⟩)
    cases old <;> cases value <;> simp [Value.type] at e
    exact hff _ _ rfl rfl

theorem updateField_ok {rec : Task → State → Result State} {n o : Nat} {k : Value}
    {st st' : State} (hu : updateField rec n o st k = .ok st') :
    (st.heap.get n k = .nil ∧ st' = st) ∨
    st.heap.get n k ≠ .nil ∧ ∃ w, st.heap.index o k = some w ∧
      (((st.heap.get n k).type ≠ w.type ∧ ∃ q, st.heap.walk "__newindex" Heap.maxHops o k = some q ∧
        st' = { st with heap := st.heap.set q k (st.heap.get n k) }) ∨
      (∃ f g, st.heap.get n k = .func f ∧ w = .func g ∧ rec (.func f g) st = .ok st') ∨
      (∃ n' o', st.heap.get n k = .table n' ∧ w = .table o' ∧
        rec (.table n' o' k) st = .ok st') ∨
      ((st.heap.get n k).type = w.type ∧ w.type ≠ .function ∧ w.type ≠ .table ∧ st' = st)) := by
  simp only [updateField] at hu
  generalize hv : st.heap.get n k = value at hu ⊢
  by_cases hn : value = .nil
  · rw [if_pos hn] at hu
    cases hu
    exact .inl ⟨hn, rfl⟩
  rw [if_neg hn] at hu
  refine .inr ⟨hn, ?_⟩
  cases hi : st.heap.index o k with
  | none => rw [hi] at hu; cases hu
  | some w =>
    rw [hi] at hu
    refine ⟨w, rfl, ?_⟩
    dsimp only at hu
    by_cases hty : value.type ≠ w.type
    · rw [if_pos hty] at hu
      refine .inl ⟨hty, ?_⟩
      rw [Heap.newindex] at hu
      cases hq : st.heap.walk "__newindex" Heap.maxHops o k with
      | none => rw [hq] at hu; cases hu
      | some q =>
        rw [hq] at hu
        cases hu
        exact ⟨q, rfl, rfl⟩
    · rw [if_neg hty] at hu
      split at hu
      · exact .inr (.inl ⟨_, _, rfl, rfl, hu⟩)
      · exact .inr (.inr (.inl ⟨_, _, rfl, rfl, hu⟩))
      · rename_i hff htt
        cases hu
        rw [ne_eq, not_not] at hty
        refine .inr (.inr (.inr ⟨hty, fun e => ?_, fun e => ?_, rfl⟩))
        · rw [e] at hty
          cases w <;> simp [Value.type] at e
          cases value <;> simp [Value.type] at hty
          exact hff _ _ rfl rfl
        · rw [e] at hty
          cases w <;> simp [Value.type] at e
          cases value <;> simp [Value.type] at hty
          exact htt _ _ rfl rfl

theorem updateMeta_ok {rec : Task → State → Result State} {n o : Nat} {name : Value}
    {st st' : State} (hu : updateMeta rec n o name st = .ok st') :
    ((st.heap.metatable n = none ∨ st.heap.metatable o = none) ∧ st' = st) ∨
    ∃ n' o' name', st.heap.metatable n = some n' ∧ st.heap.metatable o = some o' ∧
      metaName name = some name' ∧ rec (.table n' o' name') st = .ok st' := by
  unfold updateMeta at hu
  cases ho : st.heap.metatable o with
  | none =>
    rw [ho] at hu
    cases hu
    exact .inl ⟨.inr rfl, rfl⟩
  | some o' =>
    cases hn : st.heap.metatable n with
    | none =>
      rw [ho, hn] at hu
      cases hu
      exact .inl ⟨.inl rfl, rfl⟩
    | some n' =>
      rw [ho, hn] at hu
      dsimp only at hu
      cases hm : metaName name with
      | none => rw [hm] at hu; cases hu
      | some name' =>
        rw [hm] at hu
        exact .inr ⟨n', o', name', rfl, rfl, rfl, hu⟩

end SkynetHotfix.RawUpdater
