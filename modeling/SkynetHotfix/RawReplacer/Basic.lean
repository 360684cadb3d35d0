import SkynetHotfix.FunctionsReplacer.Basic

/-!
# Replacements that call no code

The functions replacer where no metamethod runs that is a function: no object is
equal to the table `updated_func_map`, `pairs` goes through the fields, and
assignments follow tables.

The lemmas `*_ok` say once what each piece has done when it returns.
-/

namespace SkynetHotfix.RawReplacer

open Lua
open FunctionsReplacer (State FuncMap New newVersion renew replaceUpvalue replaceValue)

/-- What a replacement finds: `protected`, the order in which `pairs` meets the keys of a table and
those of `new`, `_G` and `debug.getregistry()`. -/
structure Env where
  protected_ : Value → Bool
  order : Heap → Nat → List Value
  order_perm : ∀ h t, (order h t).Perm (h.table t).keys
  orderNew : (AList fun _ : Nat => Value) → List Nat
  orderNew_perm : ∀ new, (orderNew new).Perm new.keys
  globals : Nat
  registry : Nat

/-- `replace_functions_in_upvalues` -/
def replaceFunctionsInUpvalues (updated_func_map : FuncMap) (rec : Value → State → Result State)
    (obj : Nat) (st : State) : Result State :=
  (st.heap.closure obj).foldlM (replaceUpvalue updated_func_map rec) st

/-- One field: the body of the first loop of `replace_functions_in_table`. -/
def replaceField (updated_func_map : FuncMap) (rec : Value → State → Result State) (obj : Nat)
    (acc : State × New) (k : Value) : Result (State × New) :=
  let (st, new) := acc
  let v := st.heap.get obj k
  let set (field : Value) := { st with heap := st.heap.set obj k field }
  -- `pairs` does not meet a field that is gone.
  if v = .nil then .ok acc
  else
    match newVersion updated_func_map k with
    | some new_k =>
      replaceValue updated_func_map rec v (set .nil, new.insert new_k (renew updated_func_map v))
    | none => do
      let st ← rec k (set (renew updated_func_map v))
      replaceValue updated_func_map rec v (st, new)

/-- One field of `new`: the body of the second loop. -/
def assignNew (obj : Nat) (new : New) (st : State) (k : Nat) : Result State :=
  match new.lookup k with
  | none => .ok st
  | some v =>
    match st.heap.newindex obj (.func k) v with
    | none => .error (some ())
    | some heap => .ok { st with heap }

/-- `replace_functions_in_table` -/
def replaceFunctionsInTable (env : Env) (updated_func_map : FuncMap)
    (rec : Value → State → Result State) (obj : Nat) (st : State) : Result State := do
  let st ← rec (((st.heap.metatable obj).map Value.table).getD .nil) st
  let (st, new) ← (env.order st.heap obj).foldlM (replaceField updated_func_map rec obj) (st, ∅)
  (env.orderNew new).foldlM (assignNew obj new) st

/-- `replace_functions` -/
def body (env : Env) (updated_func_map : FuncMap) (rec : Value → State → Result State)
    (obj : Value) (st : State) : Result State :=
  if env.protected_ obj then .ok st
  else
    match obj with
    | .func f =>
      if obj ∈ st.replaced_obj then .ok st
      else replaceFunctionsInUpvalues updated_func_map rec f (st.mark obj)
    | .table t =>
      if obj ∈ st.replaced_obj then .ok st
      else replaceFunctionsInTable env updated_func_map rec t (st.mark obj)
    | _ => .ok st

/-- `replace_all`, with calls nested to a depth of `fuel`. -/
def replaceAll (env : Env) (fuel : Nat) (updated_func_map : FuncMap) (new_obj : Value)
    (heap : Heap) : Result Heap :=
  let replace := Fuel.run (body env updated_func_map) fuel
  if updated_func_map.keys = [] then .ok heap
  else do
    let st ← replace new_obj ⟨heap, []⟩
    let st ← replace (.table env.globals) st
    let st ← replace (.table env.registry) st
    .ok st.heap

/-! ## What the pieces do -/

variable {env : Env} {updated_func_map : FuncMap} {rec : Value → State → Result State}
  {st st' : State}

theorem newVersion_eq_some {v : Value} {f : Nat} (hv : newVersion updated_func_map v = some f) :
    ∃ g, v = .func g ∧ updated_func_map.lookup g = some f := by
  cases v with
  | func g => exact ⟨g, rfl, hv⟩
  | _ => cases hv

theorem renew_of_none {v : Value} (hv : newVersion updated_func_map v = none) :
    renew updated_func_map v = v := by
  rw [renew, hv]

theorem renew_of_some {v : Value} {f : Nat} (hv : newVersion updated_func_map v = some f) :
    renew updated_func_map v = .func f := by
  rw [renew, hv]

/-- What is renewed is a function, before and after. -/
theorem renew_cases (updated_func_map : FuncMap) (v : Value) :
    (newVersion updated_func_map v = none ∧ renew updated_func_map v = v) ∨
    ∃ g f, v = .func g ∧ updated_func_map.lookup g = some f ∧
      renew updated_func_map v = .func f := by
  cases hv : newVersion updated_func_map v with
  | none => exact .inl ⟨rfl, renew_of_none hv⟩
  | some f =>
    obtain ⟨g, hg, hl⟩ := newVersion_eq_some hv
    exact .inr ⟨g, f, hg, hl, renew_of_some hv⟩

theorem renew_ne_nil {v : Value} (hv : v ≠ .nil) : renew updated_func_map v ≠ .nil := by
  rcases renew_cases updated_func_map v with ⟨-, e⟩ | ⟨g, f, -, -, e⟩
  · rwa [e]
  · rw [e]
    exact fun h => by cases h

theorem replaceUpvalue_ok {x : String} {c : Nat}
    (hu : replaceUpvalue updated_func_map rec st (x, c) = .ok st') :
    (∃ g f, st.heap.cell c = .func g ∧ updated_func_map.lookup g = some f ∧
      st' = { st with heap := st.heap.setCell c (.func f) }) ∨
    (newVersion updated_func_map (st.heap.cell c) = none ∧
      rec (st.heap.cell c) st = .ok st') := by
  simp only [replaceUpvalue] at hu
  cases hv : newVersion updated_func_map (st.heap.cell c) with
  | none =>
    rw [hv] at hu
    exact .inr ⟨rfl, hu⟩
  | some f =>
    rw [hv] at hu
    cases hu
    obtain ⟨g, hg, hl⟩ := newVersion_eq_some hv
    exact .inl ⟨g, f, hg, hl, rfl⟩

theorem replaceField_ok {obj : Nat} {new new' : New} {k : Value}
    (hu : replaceField updated_func_map rec obj (st, new) k = .ok (st', new')) :
    (st.heap.get obj k = .nil ∧ st' = st ∧ new' = new) ∨
    st.heap.get obj k ≠ .nil ∧ ∃ st₁,
      ((∃ g f, k = .func g ∧ updated_func_map.lookup g = some f ∧
          st₁ = { st with heap := st.heap.set obj k .nil } ∧
          new' = new.insert f (renew updated_func_map (st.heap.get obj k))) ∨
        (newVersion updated_func_map k = none ∧ new' = new ∧
          rec k
            { st with heap := st.heap.set obj k (renew updated_func_map (st.heap.get obj k)) } =
              .ok st₁)) ∧
      (((newVersion updated_func_map (st.heap.get obj k)).isSome ∧ st' = st₁) ∨
        (newVersion updated_func_map (st.heap.get obj k) = none ∧
          rec (st.heap.get obj k) st₁ = .ok st')) := by
  -- The end of the turn, from the state and the fields of `new` that the first half leaves.
  have hvalue : ∀ (st₁ : State) (new₁ : New),
      (match newVersion updated_func_map (st.heap.get obj k) with
        | some _ => (.ok (st₁, new₁) : Result (State × New))
        | none => do
          let st ← rec (st.heap.get obj k) st₁
          .ok (st, new₁)) = .ok (st', new') →
      new' = new₁ ∧ (((newVersion updated_func_map (st.heap.get obj k)).isSome ∧ st' = st₁) ∨
        (newVersion updated_func_map (st.heap.get obj k) = none ∧
          rec (st.heap.get obj k) st₁ = .ok st')) := by
    intro st₁ new₁ h
    cases hv : newVersion updated_func_map (st.heap.get obj k) with
    | some f =>
      rw [hv] at h
      cases h
      exact ⟨rfl, .inl ⟨rfl, rfl⟩⟩
    | none =>
      rw [hv] at h
      obtain ⟨st₂, h₂, h⟩ := Fuel.bind_eq_ok.mp h
      cases h
      exact ⟨rfl, .inr ⟨rfl, h₂⟩⟩
  simp only [replaceField] at hu
  by_cases hn : st.heap.get obj k = .nil
  · rw [if_pos hn] at hu
    cases hu
    exact .inl ⟨hn, rfl, rfl⟩
  rw [if_neg hn] at hu
  refine .inr ⟨hn, ?_⟩
  cases hk : newVersion updated_func_map k with
  | some f =>
    rw [hk] at hu
    obtain ⟨g, hg, hl⟩ := newVersion_eq_some hk
    obtain ⟨hnew, hv⟩ := hvalue _ _ hu
    exact ⟨_, .inl ⟨g, f, hg, hl, rfl, hnew⟩, hv⟩
  | none =>
    rw [hk] at hu
    obtain ⟨st₁, h₁, hu⟩ := Fuel.bind_eq_ok.mp hu
    obtain ⟨hnew, hv⟩ := hvalue _ _ hu
    exact ⟨st₁, .inr ⟨rfl, hnew, h₁⟩, hv⟩

theorem assignNew_ok {obj k : Nat} {new : New} (hu : assignNew obj new st k = .ok st') :
    (new.lookup k = none ∧ st' = st) ∨
    ∃ v q, new.lookup k = some v ∧
      st.heap.walk "__newindex" Heap.maxHops obj (.func k) = some q ∧
      st' = { st with heap := st.heap.set q (.func k) v } := by
  unfold assignNew at hu
  cases hv : new.lookup k with
  | none =>
    rw [hv] at hu
    cases hu
    exact .inl ⟨rfl, rfl⟩
  | some v =>
    rw [hv] at hu
    refine .inr ?_
    dsimp only at hu
    rw [Heap.newindex] at hu
    cases hq : st.heap.walk "__newindex" Heap.maxHops obj (.func k) with
    | none => rw [hq] at hu; cases hu
    | some q =>
      rw [hq] at hu
      cases hu
      exact ⟨v, q, rfl, rfl, rfl⟩

theorem replaceFunctionsInTable_ok {obj : Nat}
    (hu : replaceFunctionsInTable env updated_func_map rec obj st = .ok st') :
    ∃ st₁ st₂ new, rec (((st.heap.metatable obj).map Value.table).getD .nil) st = .ok st₁ ∧
      (env.order st₁.heap obj).foldlM (replaceField updated_func_map rec obj) (st₁, ∅) =
        .ok (st₂, new) ∧
      (env.orderNew new).foldlM (assignNew obj new) st₂ = .ok st' := by
  obtain ⟨st₁, h₁, hu⟩ := Fuel.bind_eq_ok.mp hu
  obtain ⟨⟨st₂, new⟩, h₂, hu⟩ := Fuel.bind_eq_ok.mp hu
  exact ⟨st₁, st₂, new, h₁, h₂, hu⟩

/-- The call ends at once, or it goes through a function or a table for the first time. -/
theorem body_ok {obj : Value} (hu : body env updated_func_map rec obj st = .ok st') :
    (st' = st ∧ (env.protected_ obj = true ∨ obj ∈ st.replaced_obj ∨
      (obj.type ≠ .function ∧ obj.type ≠ .table))) ∨
    (env.protected_ obj = false ∧ obj ∉ st.replaced_obj ∧
      ((∃ f, obj = .func f ∧
          replaceFunctionsInUpvalues updated_func_map rec f (st.mark obj) = .ok st') ∨
        ∃ t, obj = .table t ∧
          replaceFunctionsInTable env updated_func_map rec t (st.mark obj) = .ok st')) := by
  unfold body at hu
  by_cases hp : env.protected_ obj = true
  · rw [if_pos hp] at hu
    cases hu
    exact .inl ⟨rfl, .inl hp⟩
  rw [if_neg hp] at hu
  have hp : env.protected_ obj = false := by simpa using hp
  cases obj with
  | func f =>
    by_cases hr : .func f ∈ st.replaced_obj
    · simp only [if_pos hr] at hu
      cases hu
      exact .inl ⟨rfl, .inr (.inl hr)⟩
    · simp only [if_neg hr] at hu
      exact .inr ⟨hp, hr, .inl ⟨f, rfl, hu⟩⟩
  | table t =>
    by_cases hr : .table t ∈ st.replaced_obj
    · simp only [if_pos hr] at hu
      cases hu
      exact .inl ⟨rfl, .inr (.inl hr)⟩
    · simp only [if_neg hr] at hu
      exact .inr ⟨hp, hr, .inr ⟨t, rfl, hu⟩⟩
  | _ =>
    cases hu
    exact .inl ⟨rfl, .inr (.inr ⟨by simp [Value.type], by simp [Value.type]⟩)⟩

theorem replaceAll_ok {fuel : Nat} {new_obj : Value} {heap heap' : Heap}
    (hu : replaceAll env fuel updated_func_map new_obj heap = .ok heap') :
    (updated_func_map.keys = [] ∧ heap' = heap) ∨
    ∃ st₁ st₂ st₃, updated_func_map.keys ≠ [] ∧
      Fuel.run (body env updated_func_map) fuel new_obj ⟨heap, []⟩ = .ok st₁ ∧
      Fuel.run (body env updated_func_map) fuel (.table env.globals) st₁ = .ok st₂ ∧
      Fuel.run (body env updated_func_map) fuel (.table env.registry) st₂ = .ok st₃ ∧
      heap' = st₃.heap := by
  unfold replaceAll at hu
  by_cases hm : updated_func_map.keys = []
  · rw [if_pos hm] at hu
    cases hu
    exact .inl ⟨hm, rfl⟩
  · rw [if_neg hm] at hu
    obtain ⟨st₁, h₁, hu⟩ := Fuel.bind_eq_ok.mp hu
    obtain ⟨st₂, h₂, hu⟩ := Fuel.bind_eq_ok.mp hu
    obtain ⟨st₃, h₃, hu⟩ := Fuel.bind_eq_ok.mp hu
    cases hu
    exact .inr ⟨st₁, st₂, st₃, hm, h₁, h₂, h₃, rfl⟩

end SkynetHotfix.RawReplacer
