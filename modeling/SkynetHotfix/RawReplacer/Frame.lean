import Mathlib.Logic.Relation
import SkynetHotfix.RawReplacer.Basic

/-!
# What a replacement leaves alone

A property that the single writes of a replacement keep (`Kept`) is kept by a
whole run (`run_keeps`). What a run does to the heap (`Framed`) is one such
property: it writes cells of unprotected functions, and it writes no protected
table, unless `__newindex` leads it there.

A cell that two functions share may be written twice, when the new version is
itself replaced. One that is an upvalue of one function only (`Once`) is not
(`replaceAll_once`).
-/

namespace SkynetHotfix.RawReplacer

open Lua
open FunctionsReplacer (State FuncMap New newVersion renew replaceUpvalue)

variable {env : Env} {updated_func_map : FuncMap} {rec : Value → State → Result State}
  {st st' : State} {P : State → Prop} {K : Nat → Nat → Value → Prop}

/-- The writes to tables keep `P`; `K` is what is known of the fields of `new`, by the table, the
key and the value. -/
structure KeptTables (env : Env) (updated_func_map : FuncMap) (P : State → Prop)
    (K : Nat → Nat → Value → Prop) : Prop where
  value : ∀ st t k, P st → env.protected_ (.table t) = false → st.heap.get t k ≠ .nil →
    newVersion updated_func_map k = none →
    P { st with heap := st.heap.set t k (renew updated_func_map (st.heap.get t k)) }
  key : ∀ st t g f, P st → env.protected_ (.table t) = false → st.heap.get t (.func g) ≠ .nil →
    updated_func_map.lookup g = some f →
    P { st with heap := st.heap.set t (.func g) .nil } ∧
      K t f (renew updated_func_map (st.heap.get t (.func g)))
  new : ∀ st t f v q, P st → env.protected_ (.table t) = false → K t f v →
    st.heap.walk "__newindex" Heap.maxHops t (.func f) = some q →
    P { st with heap := st.heap.set q (.func f) v }

/-- All writes keep `P`. -/
structure Kept (env : Env) (updated_func_map : FuncMap) (P : State → Prop)
    (K : Nat → Nat → Value → Prop) : Prop extends KeptTables env updated_func_map P K where
  mark : ∀ st obj, P st → P (st.mark obj)
  upvalue : ∀ st u x c g f, P st → env.protected_ (.func u) = false →
    (x, c) ∈ st.heap.closure u → st.heap.cell c = .func g → updated_func_map.lookup g = some f →
    P { st with heap := st.heap.setCell c (.func f) }

theorem replaceField_keeps (H : KeptTables env updated_func_map P K) {t : Nat}
    (hp : env.protected_ (.table t) = false)
    (hrec : ∀ obj st st', P st → rec obj st = .ok st' → P st') {acc acc' : State × New} {k : Value}
    (hacc : P acc.1 ∧ ∀ f v, acc.2.lookup f = some v → K t f v)
    (hk : replaceField updated_func_map rec t acc k = .ok acc') :
    P acc'.1 ∧ ∀ f v, acc'.2.lookup f = some v → K t f v := by
  obtain ⟨st, new⟩ := acc
  obtain ⟨st', new'⟩ := acc'
  obtain ⟨hst, hnew⟩ := hacc
  rcases replaceField_ok hk with ⟨-, rfl, rfl⟩ | ⟨hn, st₁, h₁, h₂⟩
  · exact ⟨hst, hnew⟩
  have hfirst : P st₁ ∧ ∀ f v, new'.lookup f = some v → K t f v := by
    rcases h₁ with ⟨g, f, rfl, hl, rfl, rfl⟩ | ⟨hold, rfl, h₁⟩
    · obtain ⟨hst₁, hK⟩ := H.key st t g f hst hp hn hl
      refine ⟨hst₁, fun f' v hf' => ?_⟩
      by_cases e : f' = f
      · subst e
        rw [AList.lookup_insert] at hf'
        cases hf'
        exact hK
      · rw [AList.lookup_insert_ne e] at hf'
        exact hnew f' v hf'
    · exact ⟨hrec _ _ st₁ (H.value st t k hst hp hn hold) h₁, hnew⟩
  rcases h₂ with ⟨-, rfl⟩ | ⟨-, h₂⟩
  · exact hfirst
  · exact ⟨hrec _ st₁ st' hfirst.1 h₂, hfirst.2⟩

theorem assignNew_keeps (H : KeptTables env updated_func_map P K) {t f : Nat} {new : New}
    (hp : env.protected_ (.table t) = false) (hnew : ∀ f v, new.lookup f = some v → K t f v)
    (hst : P st) (hk : assignNew t new st f = .ok st') : P st' := by
  rcases assignNew_ok hk with ⟨-, rfl⟩ | ⟨v, q, hv, hq, rfl⟩
  · exact hst
  · exact H.new st t f v q hst hp (hnew f v hv) hq

theorem replaceFunctionsInTable_keeps (H : KeptTables env updated_func_map P K) {t : Nat}
    (hp : env.protected_ (.table t) = false)
    (hrec : ∀ obj st st', P st → rec obj st = .ok st' → P st') (hst : P st)
    (hu : replaceFunctionsInTable env updated_func_map rec t st = .ok st') : P st' := by
  obtain ⟨st₁, st₂, new, h₁, hloop, hnew⟩ := replaceFunctionsInTable_ok hu
  have hfields : P st₂ ∧ ∀ f v, new.lookup f = some v → K t f v :=
    (Fuel.foldlM_post (Q := fun _ _ => True)
      (P := fun acc : State × New => P acc.1 ∧ ∀ f v, acc.2.lookup f = some v → K t f v)
      (fun k _ acc acc' hacc hk => ⟨replaceField_keeps H hp hrec hacc hk, trivial, fun _ => id⟩)
      (show P st₁ ∧ ∀ f v, (∅ : New).lookup f = some v → K t f v from
        ⟨hrec _ st st₁ hst h₁, by simp⟩) hloop).1
  exact (Fuel.foldlM_post (Q := fun _ _ => True)
    (fun f _ s s' hs hk => ⟨assignNew_keeps H hp hfields.2 hs hk, trivial, fun _ => id⟩)
    hfields.1 hnew).1

theorem run_keeps (H : Kept env updated_func_map P K)
    (hclosure : ∀ st st', P st → P st' → st.heap.closure = st'.heap.closure) :
    ∀ fuel obj st st', P st → Fuel.run (body env updated_func_map) fuel obj st = .ok st' →
      P st' := by
  refine Fuel.run_post (P := fun _ st => P st) (Q := fun _ _ st' => P st')
    fun rec hrec obj st st' hst hu => ?_
  rcases body_ok hu with ⟨rfl, -⟩ | ⟨hp, -, ⟨u, rfl, hu⟩ | ⟨t, rfl, hu⟩⟩
  · exact hst
  · have hm : P (st.mark (.func u)) := H.mark st (.func u) hst
    refine (Fuel.foldlM_post (Q := fun _ _ => True)
      (fun a ha s s' hs hk => ⟨?_, trivial, fun _ => id⟩) hm hu).1
    obtain ⟨x, c⟩ := a
    rw [hclosure _ s hm hs] at ha
    rcases replaceUpvalue_ok hk with ⟨g, f, hg, hl, rfl⟩ | ⟨-, hr⟩
    · exact H.upvalue s u x c g f hs hp ha hg hl
    · exact hrec _ s s' hs hr
  · exact replaceFunctionsInTable_keeps H.toKeptTables hp (fun obj st st' => hrec obj st st')
      (H.mark st (.table t) hst) hu

/-- What each of the three calls keeps, `replace_all` keeps. -/
theorem replaceAll_keeps {fuel : Nat} {new_obj : Value} {h h' : Heap}
    (hrun : ∀ obj st st', P st → Fuel.run (body env updated_func_map) fuel obj st = .ok st' →
      P st') (hst : P ⟨h, []⟩) (hu : replaceAll env fuel updated_func_map new_obj h = .ok h') :
    ∃ st', P st' ∧ h' = st'.heap := by
  rcases replaceAll_ok hu with ⟨-, rfl⟩ | ⟨st₁, st₂, st₃, -, h₁, h₂, h₃, rfl⟩
  · exact ⟨⟨_, []⟩, hst, rfl⟩
  · have hst₁ := hrun _ _ st₁ hst h₁
    have hst₂ := hrun _ st₁ st₂ hst₁ h₂
    exact ⟨st₃, hrun _ st₂ st₃ hst₂ h₃, rfl⟩

/-! ## The frame -/

/-- An assignment to the one table may end at the other. -/
def Leads (h : Heap) : Nat → Nat → Prop :=
  Relation.ReflTransGen fun t p =>
    ∃ m, h.metatable t = some m ∧ h.get m (.str "__newindex") = .table p

theorem leads_of_walk {h : Heap} {k : Value} {hops t q : Nat}
    (hw : h.walk "__newindex" hops t k = some q) : Leads h t q := by
  induction hops generalizing t with
  | zero =>
    rw [Heap.walk] at hw
    split at hw <;> cases hw
    exact .refl
  | succ hops ih =>
    rw [Heap.walk] at hw
    split at hw
    · cases hw
      exact .refl
    split at hw
    · cases hw
      exact .refl
    · rename_i m hm
      split at hw
      · cases hw
        exact .refl
      · rename_i p hp
        exact (ih hw).head ⟨m, hm, hp⟩
      · cases hw

/-- An old function is a key of no table from which an assignment may end at a protected one. -/
def Aside (env : Env) (updated_func_map : FuncMap) (h : Heap) (leads : Nat → Nat → Prop) : Prop :=
  ∀ t q g f, env.protected_ (.table t) = false → env.protected_ (.table q) = true → leads t q →
    updated_func_map.lookup g = some f → h.get t (.func g) = .nil

/-- The heap differs from `h` as a replacement may make it. -/
structure Framed (env : Env) (updated_func_map : FuncMap) (h h' : Heap) : Prop where
  closure : h'.closure = h.closure
  metatable : ∀ t, h'.metatable t = h.metatable t
  link : ∀ t s p, h'.get t (.str s) = .table p → h.get t (.str s) = .table p
  field : ∀ t k, env.protected_ (.table t) = true → h'.get t k = h.get t k
  aside : Aside env updated_func_map h' (Leads h)
  cell : ∀ c, h'.cell c = h.cell c ∨ (∃ u x, env.protected_ (.func u) = false ∧
    (x, c) ∈ h.closure u) ∧ ∃ g f, h.cell c = .func g ∧ updated_func_map.lookup g = some f ∧
      (h'.cell c = .func f ∨ updated_func_map.lookup f ≠ none)

namespace Framed

variable {h h' : Heap}

theorem leads (hf : Framed env updated_func_map h h') {t q : Nat} (hl : Leads h' t q) :
    Leads h t q :=
  hl.lift id fun t p ⟨m, hm, hp⟩ => ⟨m, by rw [← hf.metatable]; exact hm, hf.link m _ p hp⟩

/-- A write to a table that is not protected, and that puts no table under a text. -/
theorem set (hf : Framed env updated_func_map h h') {t : Nat} {k v : Value}
    (hp : env.protected_ (.table t) = false)
    (hlink : ∀ s p, k = .str s → v = .table p → h'.get t k = .table p)
    (haside : ∀ q g f, env.protected_ (.table q) = true → Leads h t q →
      updated_func_map.lookup g = some f → k = .func g → v = .nil) :
    Framed env updated_func_map h (h'.set t k v) where
  closure := hf.closure
  metatable t' := by rw [Heap.metatable_set]; exact hf.metatable t'
  link t' s p hg := by
    rw [Heap.get_set] at hg
    split at hg <;> rename_i e
    · obtain ⟨rfl, rfl⟩ := e
      exact hf.link _ s p (hlink s p rfl hg)
    · exact hf.link t' s p hg
  field t' k' hp' := by
    rw [Heap.get_set, if_neg]
    · exact hf.field t' k' hp'
    · rintro ⟨rfl, -⟩
      rw [hp] at hp'
      cases hp'
  aside t' q g f hp' hq hl hg := by
    rw [Heap.get_set]
    split <;> rename_i e
    · obtain ⟨rfl, e⟩ := e
      exact haside q g f hq hl hg e.symm
    · exact hf.aside t' q g f hp' hq hl hg
  cell := hf.cell

end Framed

theorem kept_framed (env : Env) (updated_func_map : FuncMap) (h : Heap) :
    Kept env updated_func_map (fun st => Framed env updated_func_map h st.heap)
      fun t _ _ => ∀ q, Leads h t q → env.protected_ (.table q) = false where
  mark st obj hst := hst
  value st t k hst hp hn hk := by
    refine hst.set hp (fun s p _ hv => ?_) fun q g f _ _ hl e => ?_
    · rcases renew_cases updated_func_map (st.heap.get t k) with ⟨-, e⟩ | ⟨g, f, -, -, e⟩
      · rw [← e, hv]
      · rw [e] at hv
        cases hv
    · rw [e, newVersion, hl] at hk
      cases hk
  key st t g f hst hp hn hl := by
    refine ⟨hst.set hp (fun s p e _ => by cases e) fun _ _ _ _ _ _ _ => rfl, fun q hq => ?_⟩
    by_contra hpq
    exact hn (hst.aside t q g f hp (by simpa using hpq) hq hl)
  new st t f v q hst hp hK hq := by
    have hl := hst.leads (leads_of_walk hq)
    refine hst.set (hK q hl) (fun s p e _ => by cases e) fun q' g f' hq' hl' _ _ => ?_
    rw [hK q' (hl.trans hl')] at hq'
    cases hq'
  upvalue st u x c g f hst hp hx hg hl := by
    refine { hst with cell := fun c' => ?_ }
    show (st.heap.setCell c (.func f)).cell c' = h.cell c' ∨ _
    rw [hst.closure] at hx
    rw [Heap.cell_setCell]
    split <;> rename_i e
    · subst e
      refine .inr ⟨⟨u, x, hp, hx⟩, ?_⟩
      rcases hst.cell c' with e | ⟨-, g', f', hg', hl', hf'⟩
      · exact ⟨g, f, by rw [← e, hg], hl, .inl rfl⟩
      · refine ⟨g', f', hg', hl', .inr ?_⟩
        rcases hf' with e | hf'
        · rw [hg] at e
          cases e
          rw [hl]
          exact Option.some_ne_none f
        · exact hf'
    · exact hst.cell c'

theorem replaceAll_framed {fuel : Nat} {new_obj : Value} {h h' : Heap}
    (haside : Aside env updated_func_map h (Leads h))
    (hu : replaceAll env fuel updated_func_map new_obj h = .ok h') :
    Framed env updated_func_map h h' := by
  obtain ⟨st', hst', rfl⟩ := replaceAll_keeps (run_keeps (kept_framed env updated_func_map h)
    (fun _ _ hst hst' => hst.closure.trans hst'.closure.symm) fuel)
    ⟨rfl, fun _ => rfl, fun _ _ _ => id, fun _ _ _ => rfl, haside, fun _ => .inl rfl⟩ hu
  exact hst'

/-- A cell with a value that is no function stays as it is. -/
theorem replaceAll_cell {fuel c : Nat} {new_obj : Value} {h h' : Heap}
    (hc : (h.cell c).type ≠ .function)
    (hu : replaceAll env fuel updated_func_map new_obj h = .ok h') : h'.cell c = h.cell c := by
  have K : Kept env updated_func_map
      (fun st => st.heap.closure = h.closure ∧ st.heap.cell c = h.cell c) fun _ _ _ => True :=
    { value := fun _ _ _ hst _ _ _ => hst
      key := fun _ _ _ _ hst _ _ _ => ⟨hst, trivial⟩
      new := fun _ _ _ _ _ hst _ _ _ => hst
      mark := fun _ _ => id
      upvalue := fun st u x c' g f hst _ _ hg _ => by
        refine ⟨hst.1, ?_⟩
        show (st.heap.setCell c' (.func f)).cell c = h.cell c
        rw [Heap.cell_setCell]
        split <;> rename_i e
        · rw [← hst.2, e, hg] at hc
          exact absurd rfl hc
        · exact hst.2 }
  obtain ⟨st', hst', rfl⟩ := replaceAll_keeps (run_keeps K
    (fun _ _ hst hst' => hst.1.trans hst'.1.symm) fuel) ⟨rfl, rfl⟩ hu
  exact hst'.2

/-- A field under a text is not removed. -/
theorem replaceAll_field {fuel t : Nat} {s : String} {new_obj : Value} {h h' : Heap}
    (hs : h.get t (.str s) ≠ .nil)
    (hu : replaceAll env fuel updated_func_map new_obj h = .ok h') : h'.get t (.str s) ≠ .nil := by
  have hset : ∀ {heap : Heap} {t' : Nat} {k v : Value}, heap.get t (.str s) ≠ .nil →
      (k = .str s → v ≠ .nil) → (heap.set t' k v).get t (.str s) ≠ .nil := by
    intro heap t' k v hheap hv
    rw [Heap.get_set]
    split <;> rename_i e
    · exact hv e.2.symm
    · exact hheap
  have K : Kept env updated_func_map
      (fun st => st.heap.closure = h.closure ∧ st.heap.get t (.str s) ≠ .nil)
      fun _ _ _ => True :=
    { value := fun _ _ _ hst _ hn _ => ⟨hst.1, hset hst.2 fun _ => renew_ne_nil hn⟩
      key := fun _ _ _ _ hst _ _ _ => ⟨⟨hst.1, hset hst.2 Value.noConfusion⟩, trivial⟩
      new := fun _ _ _ _ _ hst _ _ _ => ⟨hst.1, hset hst.2 Value.noConfusion⟩
      mark := fun _ _ => id
      upvalue := fun _ _ _ _ _ _ hst _ _ _ _ => hst }
  obtain ⟨st', hst', rfl⟩ := replaceAll_keeps (run_keeps K
    (fun _ _ hst hst' => hst.1.trans hst'.1.symm) fuel) ⟨rfl, hs⟩ hu
  exact hst'.2

/-! ## A cell of one function -/

/-- The cell is an upvalue of no two functions that are not protected, and of none twice. -/
structure Once (env : Env) (h : Heap) (c : Nat) : Prop where
  owner : ∀ u u' x x', env.protected_ (.func u) = false → env.protected_ (.func u') = false →
    (x, c) ∈ h.closure u → (x', c) ∈ h.closure u' → u = u'
  single : ∀ u, env.protected_ (.func u) = false → ((h.closure u).map Prod.snd).count c ≤ 1

/-- The cell `c` of the function `u` waits for `u`, which replaces its value once. -/
structure Waits (updated_func_map : FuncMap) (h : Heap) (u c : Nat) (st : State) : Prop where
  closure : st.heap.closure = h.closure
  before : .func u ∉ st.replaced_obj → st.heap.cell c = h.cell c
  cell : st.heap.cell c = h.cell c ∨ st.heap.cell c = renew updated_func_map (h.cell c)

/-- From `st₀` on, once `u` has been met, the cell is only written by `u` itself. -/
structure Rests (updated_func_map : FuncMap) (h : Heap) (u c : Nat) (st₀ st : State) : Prop where
  waits : Waits updated_func_map h u c st
  grows : st₀.replaced_obj ⊆ st.replaced_obj
  rests : .func u ∈ st₀.replaced_obj → st.heap.cell c = st₀.heap.cell c

/-- The cell while `u` goes through its upvalues, of which `l` are left. -/
structure Left (updated_func_map : FuncMap) (h : Heap) (u c : Nat) (st₀ : State)
    (l : List (String × Nat)) (st : State) : Prop where
  closure : st.heap.closure = h.closure
  met : .func u ∈ st.replaced_obj
  grows : st₀.replaced_obj ⊆ st.replaced_obj
  single : (l.map Prod.snd).count c ≤ 1
  cell : st.heap.cell c = h.cell c ∨ st.heap.cell c = renew updated_func_map (h.cell c)
  left : c ∈ l.map Prod.snd → st.heap.cell c = h.cell c

theorem Rests.trans {h : Heap} {u c : Nat} {st₀ st₁ st₂ : State}
    (h₁ : Rests updated_func_map h u c st₀ st₁) (h₂ : Rests updated_func_map h u c st₁ st₂) :
    Rests updated_func_map h u c st₀ st₂ :=
  ⟨h₂.waits, List.Subset.trans h₁.grows h₂.grows,
    fun hu => (h₂.rests (h₁.grows hu)).trans (h₁.rests hu)⟩

/-- Writes to tables leave the cell as it is. -/
theorem Rests.tables {h h' : Heap} {u c : Nat} {st₀ : State}
    (hst : Rests updated_func_map h u c st₀ st) (hclosure : h'.closure = st.heap.closure)
    (hcell : h'.cell = st.heap.cell) :
    Rests updated_func_map h u c st₀ { st with heap := h' } where
  waits :=
    { closure := hclosure.trans hst.waits.closure
      before := fun hn => (congrFun hcell c).trans (hst.waits.before hn)
      cell := by
        show h'.cell c = h.cell c ∨ h'.cell c = renew updated_func_map (h.cell c)
        rw [hcell]
        exact hst.waits.cell }
  grows := hst.grows
  rests hu := (congrFun hcell c).trans (hst.rests hu)

theorem kept_rests (env : Env) (updated_func_map : FuncMap) (h : Heap) (u c : Nat) (st₀ : State) :
    KeptTables env updated_func_map (Rests updated_func_map h u c st₀) fun _ _ _ => True where
  value _ _ _ hst _ _ _ := hst.tables rfl rfl
  key _ _ _ _ hst _ _ _ := ⟨hst.tables rfl rfl, trivial⟩
  new _ _ _ _ _ hst _ _ _ := hst.tables rfl rfl

theorem Left.turn {h : Heap} {u c : Nat} {st₀ : State} {a : String × Nat}
    {l : List (String × Nat)}
    (hrec : ∀ obj st st', Waits updated_func_map h u c st → rec obj st = .ok st' →
      Rests updated_func_map h u c st st')
    (hs : Left updated_func_map h u c st₀ (a :: l) st)
    (hk : replaceUpvalue updated_func_map rec st a = .ok st') :
    Left updated_func_map h u c st₀ l st' := by
  obtain ⟨y, c'⟩ := a
  have hcount := hs.single
  rw [List.map_cons, List.count_cons] at hcount
  have hleft : c ∈ l.map Prod.snd → st.heap.cell c = h.cell c :=
    fun hm => hs.left (List.mem_cons_of_mem _ hm)
  rcases replaceUpvalue_ok hk with ⟨g, f, hg, hl, rfl⟩ | ⟨-, hr⟩
  · have hcell := Heap.cell_setCell st.heap c' c (.func f)
    by_cases e : c = c'
    · subst e
      -- The one place of the cell: it is not left.
      have hn : c ∉ l.map Prod.snd := by
        rw [← List.count_pos_iff]
        simp only [beq_self_eq_true, if_true] at hcount
        omega
      have hc := hs.left List.mem_cons_self
      have hv : renew updated_func_map (h.cell c) = .func f := by
        rw [← hc, hg, renew_of_some (v := .func g) hl]
      rw [if_pos rfl, ← hv] at hcell
      refine ⟨hs.closure, hs.met, hs.grows, by omega, .inr ?_, fun hm => absurd hm hn⟩
      rw [← hcell, hv]
    · rw [if_neg e] at hcell
      refine ⟨hs.closure, hs.met, hs.grows, by omega, ?_, fun hm => hcell.trans (hleft hm)⟩
      show (st.heap.setCell c' (.func f)).cell c = h.cell c ∨
        (st.heap.setCell c' (.func f)).cell c = renew updated_func_map (h.cell c)
      rw [hcell]
      exact hs.cell
  · have hr := hrec _ st st' ⟨hs.closure, fun hn => absurd hs.met hn, hs.cell⟩ hr
    have he := hr.rests hs.met
    exact ⟨hr.waits.closure, hr.grows hs.met, List.Subset.trans hs.grows hr.grows, by omega,
      by rw [he]; exact hs.cell, fun hm => he.trans (hleft hm)⟩

theorem run_rests {h : Heap} {u c : Nat} {x : String} (honce : Once env h c)
    (hp : env.protected_ (.func u) = false) (hx : (x, c) ∈ h.closure u) :
    ∀ fuel obj st st', Waits updated_func_map h u c st →
      Fuel.run (body env updated_func_map) fuel obj st = .ok st' →
      Rests updated_func_map h u c st st' := by
  refine Fuel.run_post (P := fun _ st => Waits updated_func_map h u c st)
    (Q := fun _ st st' => Rests updated_func_map h u c st st')
    fun rec hrec obj st st' hst hu => ?_
  have hcalls : ∀ st₀ obj st st', Rests updated_func_map h u c st₀ st → rec obj st = .ok st' →
      Rests updated_func_map h u c st₀ st' :=
    fun st₀ obj st st' hst hr => hst.trans (hrec obj st st' hst.waits hr)
  rcases body_ok hu with ⟨rfl, -⟩ | ⟨hpo, hnew, ⟨f, rfl, hu⟩ | ⟨t, rfl, hu⟩⟩
  · exact ⟨hst, fun _ => id, fun _ => rfl⟩
  · by_cases e : f = u
    · -- The function itself: a cell that is left has not been written.
      subst e
      rw [replaceFunctionsInUpvalues, show (st.mark (.func f)).heap.closure = h.closure from
        hst.closure] at hu
      have hleft : Left updated_func_map h f c st (h.closure f) (st.mark (.func f)) :=
        ⟨hst.closure, List.mem_cons_self, fun _ => List.mem_cons_of_mem _, honce.single f hp,
          .inl (hst.before hnew), fun _ => hst.before hnew⟩
      have hl := Fuel.foldlM_rest (P := Left updated_func_map h f c st)
        (fun a l s s' hs hk => hs.turn hrec hk) hleft hu
      exact ⟨⟨hl.closure, fun hn => absurd hl.met hn, hl.cell⟩, hl.grows, fun hm => absurd hm hnew⟩
    · -- Another function does not have the cell.
      have hm : Rests updated_func_map h u c st (st.mark (.func f)) := by
        refine ⟨⟨hst.closure, fun hn => hst.before fun hm => hn (List.mem_cons_of_mem _ hm),
          hst.cell⟩, fun _ => List.mem_cons_of_mem _, fun _ => rfl⟩
      rw [replaceFunctionsInUpvalues, show (st.mark (.func f)).heap.closure = h.closure from
        hst.closure] at hu
      refine (Fuel.foldlM_post (Q := fun _ _ => True)
        (fun a ha s s' hs hk => ⟨?_, trivial, fun _ => id⟩) hm hu).1
      obtain ⟨y, c'⟩ := a
      rcases replaceUpvalue_ok hk with ⟨g, f', hg, hl, rfl⟩ | ⟨-, hr⟩
      · have ec : c ≠ c' := by
          rintro rfl
          exact e (honce.owner f u y x hpo hp ha hx)
        have hcell : ({ s with heap := s.heap.setCell c' (.func f') } : State).heap.cell c =
            s.heap.cell c := by
          show (s.heap.setCell c' (.func f')).cell c = s.heap.cell c
          rw [Heap.cell_setCell, if_neg ec]
        refine ⟨⟨hs.waits.closure, fun hn => ?_, ?_⟩, hs.grows, fun hm => ?_⟩
        · rw [hcell]
          exact hs.waits.before hn
        · rw [hcell]
          exact hs.waits.cell
        · rw [hcell]
          exact hs.rests hm
      · exact hcalls st _ s s' hs hr
  · have hm : Rests updated_func_map h u c st (st.mark (.table t)) := by
      refine ⟨⟨hst.closure, fun hn => hst.before fun hm => hn (List.mem_cons_of_mem _ hm),
        hst.cell⟩, fun _ => List.mem_cons_of_mem _, fun _ => rfl⟩
    exact replaceFunctionsInTable_keeps (kept_rests env updated_func_map h u c st) hpo
      (fun obj s s' hs hr => hcalls st obj s s' hs hr) hm hu

theorem replaceAll_once {fuel : Nat} {new_obj : Value} {h h' : Heap} {u c : Nat} {x : String}
    (honce : Once env h c) (hp : env.protected_ (.func u) = false) (hx : (x, c) ∈ h.closure u)
    (hu : replaceAll env fuel updated_func_map new_obj h = .ok h') :
    h'.cell c = h.cell c ∨ h'.cell c = renew updated_func_map (h.cell c) := by
  obtain ⟨st', hst', rfl⟩ := replaceAll_keeps (P := Waits updated_func_map h u c)
    (fun obj st st' hst hr => (run_rests honce hp hx fuel obj st st' hst hr).waits)
    ⟨rfl, fun _ => rfl, .inl rfl⟩ hu
  exact hst'.cell

end SkynetHotfix.RawReplacer
