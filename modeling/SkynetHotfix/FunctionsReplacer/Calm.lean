import SkynetHotfix.RawReplacer.Visits
import SkynetHotfix.RawReplacer.Frame

/-!
# Replacements that are not interfered with

Where no metamethod of the objects interferes (`Inert`) a replacement is the one
of `RawReplacer` (`replaceAll_eq`). What it makes of its heap is `Derived` from
it: the metatables are the same ones, and so are the metamethods but for
functions, so that none comes up on the way.
-/

namespace SkynetHotfix.FunctionsReplacer

open Lua RawReplacer

/-- What is left of an environment where no code runs. -/
def Env.raw (env : Env) : RawReplacer.Env where
  protected_ := env.protected_
  order := env.order
  order_perm := env.order_perm
  orderNew := env.orderNew
  orderNew_perm := env.orderNew_perm
  globals := env.globals
  registry := env.registry

/-- The heap differs from `h` as a replacement may make it, and nothing refers to the table `m`. -/
structure Derived (m : Nat) (h h' : Heap) : Prop where
  closure : h'.closure = h.closure
  metatable : ∀ t, h'.metatable t = h.metatable t
  field : ∀ t s, h'.get t (.str s) = h.get t (.str s) ∨
    ∃ f f', h.get t (.str s) = .func f ∧ h'.get t (.str s) = .func f'
  isolated : ∀ o, ¬ Refers h' o (.table m)

/-- The chain of `__newindex` ends at a table within `hops`. -/
def Arrives (h : Heap) : Nat → Nat → Prop
  | 0, _ => False
  | hops + 1, t =>
    match h.metafield t "__newindex" with
    | .nil => True
    | .table p => Arrives h hops p
    | _ => False

/-- No metamethod of an object that is not protected interferes with a replacement: it is not equal
to the table `updated_func_map`, `pairs` goes through its fields, and an assignment ends at a
table; and no object refers to that table. -/
structure Inert (env : Env) (h : Heap) : Prop where
  eq : ∀ h' t, Derived env.func_map h h' → env.protected_ (.table t) = false → t ≠ env.func_map →
    env.eq (.table t) (.table env.func_map) h' = .ok (false, h')
  pairs : ∀ t, env.protected_ (.table t) = false → h.metafield t "__pairs" = .nil
  newindex : ∀ t, env.protected_ (.table t) = false → Arrives h Heap.maxHops t
  isolated : ∀ o, ¬ Refers h o (.table env.func_map)
  globals : env.globals ≠ env.func_map
  registry : env.registry ≠ env.func_map

variable {env : Env} {updated_func_map : FuncMap} {h h' : Heap} {m : Nat}

namespace Derived

theorem ne_of_refers (hd : Derived m h h') {o r : Value} (hr : Refers h' o r) : r ≠ .table m :=
  fun e => hd.isolated o (e ▸ hr)

theorem metafield_eq_nil (hd : Derived m h h') {t : Nat} {event : String}
    (hn : h.metafield t event = .nil) : h'.metafield t event = .nil := by
  unfold Heap.metafield at hn ⊢
  rw [hd.metatable]
  cases hm : h.metatable t with
  | none => rfl
  | some p =>
    rw [hm] at hn
    dsimp only at hn ⊢
    rcases hd.field p event with e | ⟨f, f', e, -⟩
    · rw [e, hn]
    · rw [hn] at e
      cases e

theorem metafield_eq_table (hd : Derived m h h') {t p : Nat} {event : String}
    (hn : h.metafield t event = .table p) : h'.metafield t event = .table p := by
  unfold Heap.metafield at hn ⊢
  rw [hd.metatable]
  cases hm : h.metatable t with
  | none => rw [hm] at hn; cases hn
  | some q =>
    rw [hm] at hn
    dsimp only at hn ⊢
    rcases hd.field q event with e | ⟨f, f', e, -⟩
    · rw [e, hn]
    · rw [hn] at e
      cases e

theorem walk (hd : Derived m h h') {hops t : Nat} (ha : Arrives h hops t) (k : Value) :
    ∃ q, h'.walk "__newindex" hops t k = some q := by
  induction hops generalizing t with
  | zero => exact ha.elim
  | succ hops ih =>
    rw [Heap.walk_succ]
    by_cases hk : h'.get t k ≠ .nil
    · exact ⟨t, if_pos hk⟩
    rw [if_neg hk]
    rw [Arrives] at ha
    split at ha <;> rename_i e
    · exact ⟨t, by rw [hd.metafield_eq_nil e]⟩
    · rw [hd.metafield_eq_table e]
      exact ih ha
    · exact ha.elim

/-- A write of a value that is not the table, under a key that is not. -/
theorem set (hd : Derived m h h') {t : Nat} {k v : Value} (hk : h'.get t k ≠ .nil ∨ k ≠ .table m)
    (hv : v ≠ .table m) (hs : ∀ s, k = .str s → v = h'.get t k ∨
      ∃ f f', h'.get t k = .func f ∧ v = .func f') : Derived m h (h'.set t k v) where
  closure := hd.closure
  metatable t' := by rw [Heap.metatable_set]; exact hd.metatable t'
  field t' s := by
    rw [Heap.get_set]
    split <;> rename_i e
    · obtain ⟨rfl, rfl⟩ := e
      rcases hs s rfl with rfl | ⟨f, f', e, rfl⟩
      · exact hd.field _ s
      · rcases hd.field t' s with e' | ⟨g, g', e', -⟩
        · exact .inr ⟨f, f', e'.symm.trans e, rfl⟩
        · exact .inr ⟨g, f', e', rfl⟩
    · exact hd.field t' s
  isolated o hr := by
    have hne : k ≠ .table m := by
      rcases hk with hk | hk
      · exact hd.ne_of_refers (.key hk)
      · exact hk
    generalize e : Value.table m = r at hr
    cases hr with
    | @key t' k' hk' =>
      rw [Heap.get_set, if_neg fun hc => hne (hc.2.symm.trans e.symm)] at hk'
      exact hd.ne_of_refers (.key hk') e.symm
    | @value t' k' hk' =>
      rw [Heap.get_set] at hk' e
      split at e <;> rename_i hc
      · exact hv e.symm
      · rw [if_neg hc] at hk'
        exact hd.ne_of_refers (.value hk') e.symm
    | metatable hm' =>
      rw [Heap.metatable_set] at hm'
      exact hd.ne_of_refers (.metatable hm') e.symm
    | upvalue hx => exact hd.ne_of_refers (.upvalue hx) e.symm

theorem setCell (hd : Derived m h h') (c f : Nat) : Derived m h (h'.setCell c (.func f)) where
  closure := hd.closure
  metatable := hd.metatable
  field := hd.field
  isolated o hr := by
    generalize e : Value.table m = r at hr
    cases hr with
    | key hk => exact hd.ne_of_refers (.key hk) e.symm
    | value hk => exact hd.ne_of_refers (.value hk) e.symm
    | metatable hm' => exact hd.ne_of_refers (.metatable hm') e.symm
    | upvalue hx =>
      rw [Heap.cell_setCell] at e
      split at e
      · cases e
      · exact hd.ne_of_refers (.upvalue hx) e.symm

end Derived

theorem renew_ne_table {v : Value} (hv : v ≠ .table m) : renew updated_func_map v ≠ .table m := by
  rcases renew_cases updated_func_map v with ⟨-, e⟩ | ⟨g, f, -, -, e⟩ <;> rw [e]
  · exact hv
  · exact Value.noConfusion

/-- A raw replacement makes of its heap what is derived from it. -/
theorem kept_derived (env : RawReplacer.Env) (updated_func_map : FuncMap) (m : Nat) (h : Heap) :
    Kept env updated_func_map (fun st => Derived m h st.heap) fun _ _ v => v ≠ .table m where
  mark _ _ hst := hst
  value st t k hst _ hn hk := by
    have hv : st.heap.get t k ≠ .table m := hst.ne_of_refers (.value hn)
    refine hst.set (.inl hn) (renew_ne_table hv) fun s _ => ?_
    rcases renew_cases updated_func_map (st.heap.get t k) with ⟨-, e⟩ | ⟨g, f, e, -, e'⟩
    · exact .inl e
    · exact .inr ⟨g, f, e, e'⟩
  key st t g f hst _ hn _ := by
    have hv : st.heap.get t (.func g) ≠ .table m := hst.ne_of_refers (.value hn)
    exact ⟨hst.set (.inl hn) Value.noConfusion (fun s e => by cases e), renew_ne_table hv⟩
  new st t f v q hst _ hv _ := hst.set (.inr Value.noConfusion) hv fun s e => by cases e
  upvalue st u x c g f hst _ _ _ _ := hst.setCell c f

/-! ## The bodies -/

variable {rec rec' : Value → State → Result State} {st : State}

/-- The calls do what the raw ones do. -/
def Agrees (env : Env) (h : Heap) (rec rec' : Value → State → Result State) : Prop :=
  ∀ obj st, obj ≠ .table env.func_map → Derived env.func_map h st.heap → rec obj st = rec' obj st

/-- The raw calls keep what is derived. -/
def Keeps (env : Env) (h : Heap) (rec' : Value → State → Result State) : Prop :=
  ∀ obj st st', Derived env.func_map h st.heap → rec' obj st = .ok st' →
    Derived env.func_map h st'.heap

theorem assertOther_func (f : Nat) (st : State) : assertOther env (.func f) st = .ok st := rfl

theorem Inert.assertOther_table (hi : Inert env h) {t : Nat}
    (hp : env.protected_ (.table t) = false) (ht : t ≠ env.func_map)
    (hd : Derived env.func_map h st.heap) : assertOther env (.table t) st = .ok st := by
  rw [assertOther, hi.eq st.heap t hd hp ht]
  rfl

theorem replaceFunctionsInUpvalues_eq (hrec : Agrees env h rec rec') (hkeep : Keeps env h rec')
    (f : Nat) (hd : Derived env.func_map h st.heap) :
    replaceFunctionsInUpvalues env updated_func_map rec f st =
      RawReplacer.replaceFunctionsInUpvalues updated_func_map rec' f st := by
  rw [replaceFunctionsInUpvalues, assertOther_func, Fuel.ok_bind]
  refine Fuel.foldlM_congr (P := fun st : State => Derived env.func_map h st.heap)
    (fun u hu s hs => ?_) (fun u hu s s' hs hk => ?_) hd <;> obtain ⟨x, c⟩ := u
  · simp only [replaceUpvalue]
    cases newVersion updated_func_map (s.heap.cell c) with
    | some f' => rfl
    | none =>
      have hx : (x, c) ∈ s.heap.closure f := by rwa [hs.closure, ← hd.closure]
      exact hrec _ s (hs.ne_of_refers (.upvalue hx)) hs
  · rcases replaceUpvalue_ok hk with ⟨g, f', hg, hl, rfl⟩ | ⟨-, hr⟩
    · exact hs.setCell c f'
    · exact hkeep _ s s' hs hr

/-- An assignment to a field that is there. -/
theorem newindex_of_get {t : Nat} {k : Value} (hk : h.get t k ≠ .nil) (R : Runtime) (v : Value) :
    R.newindex Heap.maxHops t k v h = .ok (h.set t k v) :=
  Runtime.newindex_of_walk (Heap.walk_of_get hk _ _) v

theorem replaceField_eq (hrec : Agrees env h rec rec') (hkeep : Keeps env h rec') {t : Nat}
    (hp : env.protected_ (.table t) = false) (k : Value) {new : New}
    (hd : Derived env.func_map h st.heap) :
    (if st.heap.get t k = .nil then .ok (st, new)
      else replaceField env updated_func_map rec t k (st.heap.get t k) (st, new)) =
      RawReplacer.replaceField updated_func_map rec' t (st, new) k := by
  have H := kept_derived env.raw updated_func_map env.func_map h
  simp only [RawReplacer.replaceField]
  by_cases hn : st.heap.get t k = .nil
  · rw [if_pos hn, if_pos hn]
  have hv := hd.ne_of_refers (.value hn)
  -- the second half of a turn
  have hvalue : ∀ (s : State) (new' : New), Derived env.func_map h s.heap →
      replaceValue updated_func_map rec (st.heap.get t k) (s, new') =
        replaceValue updated_func_map rec' (st.heap.get t k) (s, new') :=
    fun s new' hs => by simp only [replaceValue, hrec _ s hv hs]
  rw [if_neg hn, if_neg hn]
  simp only [replaceField, newindex_of_get hn]
  cases hk : newVersion updated_func_map k with
  | some new_k =>
    obtain ⟨g, rfl, hl⟩ := newVersion_eq_some hk
    exact hvalue _ _ (H.key st t g new_k hd hp hn hl).1
  | none =>
    have hset := H.value st t k hd hp hn hk
    simp only [Fuel.ok_bind]
    rw [hrec k _ (hd.ne_of_refers (.key hn)) hset]
    cases e : rec' k { st with heap := st.heap.set t k (renew updated_func_map (st.heap.get t k)) }
      with
    | error => rfl
    | ok st' => exact hvalue st' new (hkeep k _ st' hset e)

theorem assignNew_eq (hi : Inert env h) {t : Nat} (hp : env.protected_ (.table t) = false)
    (new : New) (f : Nat) (hd : Derived env.func_map h st.heap) :
    assignNew env t new st f = RawReplacer.assignNew t new st f := by
  unfold assignNew RawReplacer.assignNew
  cases new.lookup f with
  | none => rfl
  | some v =>
    obtain ⟨q, hq⟩ := hd.walk (hi.newindex t hp) (.func f)
    dsimp only
    rw [Runtime.newindex_of_walk hq, Heap.newindex, hq]
    rfl

theorem replaceFunctionsInTable_eq (hi : Inert env h) (hrec : Agrees env h rec rec')
    (hkeep : Keeps env h rec') {t : Nat} (hp : env.protected_ (.table t) = false)
    (ht : t ≠ env.func_map) (hd : Derived env.func_map h st.heap) :
    replaceFunctionsInTable env updated_func_map rec t st =
      RawReplacer.replaceFunctionsInTable env.raw updated_func_map rec' t st := by
  have H := (kept_derived env.raw updated_func_map env.func_map h).toKeptTables
  have hmeta : ((st.heap.metatable t).map Value.table).getD .nil ≠ .table env.func_map := by
    cases hm : st.heap.metatable t with
    | none => exact Value.noConfusion
    | some p => exact hd.ne_of_refers (.metatable hm)
  rw [replaceFunctionsInTable, RawReplacer.replaceFunctionsInTable, hi.assertOther_table hp ht hd,
    Fuel.ok_bind, hrec _ st hmeta hd]
  refine Fuel.bind_congr_ok fun st₁ hst₁ => ?_
  have hd₁ := hkeep _ st st₁ hd hst₁
  have hturn : ∀ k (acc acc' : State × New),
      (Derived env.func_map h acc.1.heap ∧ ∀ f v, acc.2.lookup f = some v →
        v ≠ .table env.func_map) →
      RawReplacer.replaceField updated_func_map rec' t acc k = .ok acc' →
      Derived env.func_map h acc'.1.heap ∧ ∀ f v, acc'.2.lookup f = some v →
        v ≠ .table env.func_map := fun k acc acc' hacc hk =>
    replaceField_keeps H hp hkeep hacc hk
  have hstart : Derived env.func_map h (st₁, (∅ : New)).1.heap ∧
      ∀ f v, (∅ : New).lookup f = some v → v ≠ .table env.func_map := ⟨hd₁, by simp⟩
  have hloop := Fuel.foldlM_congr (l := env.order st₁.heap t)
    (f := fun acc k => if acc.1.heap.get t k = .nil then .ok acc
      else replaceField env updated_func_map rec t k (acc.1.heap.get t k) acc)
    (g := RawReplacer.replaceField updated_func_map rec' t)
    (P := fun acc : State × New => Derived env.func_map h acc.1.heap ∧
      ∀ f v, acc.2.lookup f = some v → v ≠ .table env.func_map)
    (fun k _ acc hacc => replaceField_eq hrec hkeep hp k hacc.1)
    (fun k _ acc acc' hacc hk => hturn k acc acc' hacc hk) hstart
  have hpairs : st₁.heap.metafield t "__pairs" = .nil := hd₁.metafield_eq_nil (hi.pairs t hp)
  rw [Runtime.forPairs, hpairs]
  dsimp only
  rw [hloop]
  refine Fuel.bind_congr_ok fun acc hacc => ?_
  obtain ⟨hd₂, hnew⟩ := (Fuel.foldlM_post (Q := fun _ _ => True)
    (fun k _ acc acc' hacc hk => ⟨hturn k acc acc' hacc hk, trivial, fun _ => id⟩) hstart hacc).1
  exact Fuel.foldlM_congr (P := fun st : State => Derived env.func_map h st.heap)
    (fun f _ st hst => assignNew_eq hi hp acc.2 f hst)
    (fun f _ st st' hst hk => assignNew_keeps H hp hnew hst hk) hd₂

/-! ## The replacement -/

theorem run_eq (updated_func_map : FuncMap) (hi : Inert env h) (fuel : Nat) :
    Agrees env h (Fuel.run (body env updated_func_map) fuel)
      (Fuel.run (RawReplacer.body env.raw updated_func_map) fuel) := by
  have hkeep : ∀ n, Keeps env h (Fuel.run (RawReplacer.body env.raw updated_func_map) n) :=
    fun n => run_keeps (kept_derived env.raw updated_func_map env.func_map h)
      (fun _ _ hst hst' => hst.closure.trans hst'.closure.symm) n
  induction fuel with
  | zero => exact fun _ _ _ _ => rfl
  | succ fuel ih =>
    intro obj st hobj hd
    show body env _ _ obj st = RawReplacer.body env.raw _ _ obj st
    unfold body RawReplacer.body
    by_cases hp : env.protected_ obj = true
    · rw [if_pos hp, if_pos (show env.raw.protected_ obj = true from hp)]
    rw [if_neg hp, if_neg (show ¬ env.raw.protected_ obj = true from hp)]
    rw [Bool.not_eq_true] at hp
    have hmark : Derived env.func_map h (st.mark obj).heap := hd
    cases obj with
    | func f =>
      dsimp only
      split
      · rfl
      · rw [assertOther_func, Fuel.ok_bind]
        exact replaceFunctionsInUpvalues_eq ih (hkeep fuel) f hmark
    | table t =>
      have ht : t ≠ env.func_map := fun e => hobj (e ▸ rfl)
      dsimp only
      split
      · rfl
      · rw [hi.assertOther_table hp ht hmark, Fuel.ok_bind]
        exact replaceFunctionsInTable_eq hi ih (hkeep fuel) hp ht hmark
    | _ => rfl

/-- A replacement is the raw one. -/
theorem replaceAll_eq (hi : Inert env h) (fuel : Nat) {new_obj : Value}
    (hobj : new_obj ≠ .table env.func_map) :
    replaceAll env fuel updated_func_map new_obj h =
      RawReplacer.replaceAll env.raw fuel updated_func_map new_obj h := by
  have hrun := run_eq updated_func_map hi fuel
  have hkeep : Keeps env h (Fuel.run (RawReplacer.body env.raw updated_func_map) fuel) :=
    run_keeps (kept_derived env.raw updated_func_map env.func_map h)
      (fun _ _ hst hst' => hst.closure.trans hst'.closure.symm) fuel
  have hd : Derived env.func_map h (⟨h, []⟩ : State).heap :=
    ⟨rfl, fun _ => rfl, fun _ _ => .inl rfl, hi.isolated⟩
  have htable : ∀ t, t ≠ env.func_map → (Value.table t) ≠ .table env.func_map :=
    fun t ht e => ht (Value.table.inj e)
  unfold replaceAll RawReplacer.replaceAll
  split
  · rfl
  dsimp only
  rw [hrun _ _ hobj hd]
  refine Fuel.bind_congr_ok fun st₁ hst₁ => ?_
  have hd₁ := hkeep _ _ st₁ hd hst₁
  rw [hrun _ _ (htable _ hi.globals) hd₁]
  refine Fuel.bind_congr_ok fun st₂ hst₂ => ?_
  have hd₂ := hkeep _ _ st₂ hd₁ hst₂
  rw [hrun _ _ (htable _ hi.registry) hd₂]
  rfl

/-- Where there are no metatables, there is nothing to interfere. -/
theorem inert_of_none (hm : ∀ t, h.metatable t = none)
    (hi : ∀ o, ¬ Refers h o (.table env.func_map)) (hg : env.globals ≠ env.func_map)
    (hr : env.registry ≠ env.func_map) : Inert env h where
  eq h' t hd _ ht := by
    have hnil : ∀ t, h'.metafield t "__eq" = .nil := fun t => by
      rw [Heap.metafield, hd.metatable, hm]
    simp only [Runtime.eq, Runtime.eqMethod, hnil, if_neg ht, if_true]
  pairs t _ := by rw [Heap.metafield, hm]
  newindex t _ := by
    rw [Heap.maxHops, Arrives, Heap.metafield, hm]
    trivial
  isolated := hi
  globals := hg
  registry := hr

end SkynetHotfix.FunctionsReplacer
