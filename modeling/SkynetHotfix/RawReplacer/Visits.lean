import SkynetHotfix.RawReplacer.Basic

/-!
# What a replacement visits

A replacement goes through what its roots lead to by references that are not
themselves replaced (`Visits`); it does not go through the functions that it
puts in. What it leaves is reached by the references as they are renewed
(`After`). It is `Complete` if what it visits has all the old functions that
are reached there, and no new version is itself replaced.

A run goes `Across` two states: it keeps the tables that have been met and the
cells that hold no old function. An object that is met is `Done` in the end,
and what is done stays so (`Done.across`).
-/

namespace SkynetHotfix.RawReplacer

open Lua
open FunctionsReplacer (State FuncMap New newVersion renew replaceUpvalue)

/-- Keys, values, metatable; upvalues. -/
inductive Refers (h : Heap) : Value → Value → Prop
  | key {t k} : h.get t k ≠ .nil → Refers h (.table t) k
  | value {t k} : h.get t k ≠ .nil → Refers h (.table t) (h.get t k)
  | metatable {t m} : h.metatable t = some m → Refers h (.table t) (.table m)
  | upvalue {u x c} : (x, c) ∈ h.closure u → Refers h (.func u) (h.cell c)

/-- What `replace_all` starts from. -/
def Env.roots (env : Env) (new_obj : Value) : List Value :=
  [new_obj, .table env.globals, .table env.registry]

/-- What the roots lead to, past what is protected. -/
inductive From (env : Env) (new_obj : Value) (next : Value → Value → Prop) : Value → Prop
  | root {o} : o ∈ env.roots new_obj → env.protected_ o = false → From env new_obj next o
  | step {o r} : From env new_obj next o → next o r → env.protected_ r = false →
      From env new_obj next r

def Reach (env : Env) (new_obj : Value) (h : Heap) : Value → Prop :=
  From env new_obj (Refers h)

/-- A call of `replace_all`. -/
structure Replacement where
  env : Env
  updated_func_map : FuncMap
  new_obj : Value
  heap : Heap

namespace Replacement

/-- An old function. -/
def Old (R : Replacement) (v : Value) : Prop := newVersion R.updated_func_map v ≠ none

def renew (R : Replacement) (v : Value) : Value := FunctionsReplacer.renew R.updated_func_map v

/-- What a replacement goes through. -/
def Visits (R : Replacement) : Value → Prop :=
  From R.env R.new_obj fun o r => Refers R.heap o r ∧ ¬ R.Old r

/-- What is reached when the references are renewed. -/
def After (R : Replacement) : Value → Prop :=
  From R.env R.new_obj fun o r => ∃ r₀, Refers R.heap o r₀ ∧ r = R.renew r₀

/-- No old function can be reached in the heap. -/
def Clean (R : Replacement) (h' : Heap) : Prop :=
  ∀ o r, Reach R.env R.new_obj h' o → Refers h' o r → ¬ R.Old r

/-- A table with an old function as a key hands no assignment on to another. -/
def Bare (R : Replacement) : Prop :=
  ∀ t g f m p, R.After (.table t) → R.heap.get t (.func g) ≠ .nil →
    R.updated_func_map.lookup g = some f → R.heap.metatable t = some m →
    R.heap.get m (.str "__newindex") ≠ .table p

/-- No new version that comes in is itself replaced. -/
def Apart (R : Replacement) : Prop :=
  ∀ o g f, R.After o → Refers R.heap o (.func g) → R.updated_func_map.lookup g = some f →
    ¬ R.Old (.func f)

/-- No new version that comes in is itself replaced; and of what is reached after the replacement,
each table that refers to an old function is visited, and each cell with an old function is one of
a function that is visited. -/
structure Complete (R : Replacement) : Prop where
  apart : R.Apart
  tables : ∀ t r, R.After (.table t) → Refers R.heap (.table t) r → R.Old r →
    R.Visits (.table t)
  cells : ∀ u x c, R.After (.func u) → (x, c) ∈ R.heap.closure u → R.Old (R.heap.cell c) →
    ∃ u' x', R.Visits (.func u') ∧ (x', c) ∈ R.heap.closure u'

/-- No two keys of a table become one, and a cell with an old function is an upvalue of one function
only, and once. -/
structure Plain (R : Replacement) : Prop where
  keys : ∀ t k k', R.After (.table t) → R.heap.get t k ≠ .nil → R.heap.get t k' ≠ .nil →
    R.renew k = R.renew k' → k = k'
  owner : ∀ u u' x x' c, R.After (.func u) → R.After (.func u') → (x, c) ∈ R.heap.closure u →
    (x', c) ∈ R.heap.closure u' → R.Old (R.heap.cell c) → u = u'
  single : ∀ u c, R.After (.func u) → R.Old (R.heap.cell c) →
    ((R.heap.closure u).map Prod.snd).count c ≤ 1

/-- What a run needs: assignments arrive, and a cell is not renewed twice. -/
structure Sound (R : Replacement) : Prop where
  bare : R.Bare
  once : R.Apart ∨ R.Plain

variable {R : Replacement}

theorem old_func {g f : Nat} (hl : R.updated_func_map.lookup g = some f) : R.Old (.func g) := by
  intro hn
  rw [newVersion, hl] at hn
  cases hn

theorem not_old_of_keys_nil {v : Value} (hmap : R.updated_func_map.keys = []) : ¬ R.Old v := by
  intro hold
  obtain ⟨f, hf⟩ := Option.ne_none_iff_exists'.mp hold
  obtain ⟨g, -, hl⟩ := newVersion_eq_some hf
  have hg : g ∈ R.updated_func_map.keys := by
    rw [← AList.mem_keys, ← AList.lookup_isSome, hl]
    rfl
  rw [hmap] at hg
  cases hg

theorem renew_of_not_old {v : Value} (hv : ¬ R.Old v) : R.renew v = v :=
  renew_of_none (not_not.mp hv)

theorem renew_func {g f : Nat} (hl : R.updated_func_map.lookup g = some f) :
    R.renew (.func g) = .func f :=
  renew_of_some (v := .func g) hl

theorem renew_cases (R : Replacement) (v : Value) : (¬ R.Old v ∧ R.renew v = v) ∨
    ∃ g f, v = .func g ∧ R.updated_func_map.lookup g = some f ∧ R.renew v = .func f := by
  rcases RawReplacer.renew_cases R.updated_func_map v with ⟨hn, e⟩ | hg
  · exact .inl ⟨fun ho => ho hn, e⟩
  · exact .inr hg

/-- What is no function has not been one. -/
theorem eq_of_eq_renew {v w : Value} (e : v = R.renew w) (hv : ∀ f, v ≠ .func f) : v = w := by
  rcases R.renew_cases w with ⟨-, e'⟩ | ⟨g, f, -, -, e'⟩
  · exact e.trans e'
  · exact absurd (e.trans e') (hv f)

theorem Apart.renewed (hapart : R.Apart) {o r : Value} (ho : R.After o)
    (hr : Refers R.heap o r) : ¬ R.Old (R.renew r) := by
  rcases R.renew_cases r with ⟨hn, e⟩ | ⟨g, f, rfl, hl, e⟩
  · rwa [e]
  · rw [e]
    exact hapart o g f ho hr hl

/-! ## States on the way -/

def Object (v : Value) : Prop := v.type = .function ∨ v.type = .table

/-- There is nothing left to do for the value. -/
def Met (R : Replacement) (st : State) (v : Value) : Prop :=
  R.env.protected_ v = true ∨ ¬ Object v ∨ v ∈ st.replaced_obj

/-- No old function; an object that is met or a new version. -/
def Good (R : Replacement) (st : State) (v : Value) : Prop :=
  ¬ R.Old v ∧ (R.Met st v ∨ ∃ g f, R.updated_func_map.lookup g = some f ∧ v = .func f)

/-- A state on the way. -/
structure Mid (R : Replacement) (st : State) : Prop where
  closure : st.heap.closure = R.heap.closure
  metatable : ∀ t, st.heap.metatable t = R.heap.metatable t
  origin : ∀ t k, st.heap.get t k ≠ .nil → ∃ k₀, R.heap.get t k₀ ≠ .nil ∧
    (k = k₀ ∨ k = R.renew k₀) ∧
    (st.heap.get t k = R.heap.get t k₀ ∨ st.heap.get t k = R.renew (R.heap.get t k₀))
  untouched : ∀ t, .table t ∉ st.replaced_obj → ∀ k, st.heap.get t k = R.heap.get t k
  cell : ∀ c, st.heap.cell c = R.heap.cell c ∨ st.heap.cell c = R.renew (R.heap.cell c)
  changed : ∀ c, st.heap.cell c ≠ R.heap.cell c →
    ∃ u x, .func u ∈ st.replaced_obj ∧ (x, c) ∈ R.heap.closure u
  after : ∀ o ∈ st.replaced_obj, R.After o
  visits : R.Plain → ∀ o ∈ st.replaced_obj, R.Visits o

variable {st s s' : State}

theorem Met.mono {v : Value} (hm : R.Met st v) (hg : st.replaced_obj ⊆ s.replaced_obj) :
    R.Met s v := by
  rcases hm with hp | ho | hm
  · exact .inl hp
  · exact .inr (.inl ho)
  · exact .inr (.inr (hg hm))

theorem Good.mono {v : Value} (hv : R.Good st v) (hg : st.replaced_obj ⊆ s.replaced_obj) :
    R.Good s v :=
  ⟨hv.1, hv.2.imp_left fun hm => hm.mono hg⟩

/-- What a reference of the heap is renewed to is good, once it is met where it stays. -/
theorem Apart.good (hapart : R.Apart) {o r : Value} (ho : R.After o) (hr : Refers R.heap o r)
    (hm : ¬ R.Old r → R.Met st r) : R.Good st (R.renew r) := by
  refine ⟨hapart.renewed ho hr, ?_⟩
  rcases R.renew_cases r with ⟨hn, e⟩ | ⟨g, f, -, hl, e⟩
  · rw [e]
    exact .inl (hm hn)
  · exact .inr ⟨g, f, hl, e⟩

theorem Mid.refers (hm : R.Mid st) {o r : Value} (hr : Refers st.heap o r) :
    ∃ r₀, Refers R.heap o r₀ ∧ (r = r₀ ∨ r = R.renew r₀) := by
  cases hr with
  | key hk =>
    obtain ⟨k₀, hk₀, e, -⟩ := hm.origin _ _ hk
    exact ⟨k₀, .key hk₀, e⟩
  | value hk =>
    obtain ⟨k₀, hk₀, -, e⟩ := hm.origin _ _ hk
    exact ⟨_, .value hk₀, e⟩
  | metatable ht =>
    rw [hm.metatable] at ht
    exact ⟨_, .metatable ht, .inl rfl⟩
  | upvalue hx =>
    rw [hm.closure] at hx
    exact ⟨_, .upvalue hx, hm.cell _⟩

/-- No table comes to stand under a text. -/
theorem Mid.link (hm : R.Mid st) {t p : Nat} {x : String}
    (hg : st.heap.get t (.str x) = .table p) : R.heap.get t (.str x) = .table p := by
  obtain ⟨k₀, -, hk, hv⟩ := hm.origin t (.str x) (by rw [hg]; exact fun e => by cases e)
  have hk : .str x = k₀ := hk.elim id fun e => eq_of_eq_renew e fun f e => by cases e
  rw [hg, ← hk] at hv
  exact (hv.elim id fun e => eq_of_eq_renew e fun f e => by cases e).symm

/-- What an object refers to on the way is reached afterwards, unless it is replaced. -/
theorem Mid.after_of_refers (hm : R.Mid st) {o r : Value} (ho : R.After o)
    (hr : Refers st.heap o r) (hn : ¬ R.Old r) (hp : R.env.protected_ r = false) : R.After r := by
  obtain ⟨r₀, hr₀, rfl | rfl⟩ := hm.refers hr
  · exact .step ho ⟨r, hr₀, (renew_of_not_old hn).symm⟩ hp
  · exact .step ho ⟨r₀, hr₀, rfl⟩ hp

/-- A value that is not replaced stays in its cell. -/
theorem Mid.cell_of_not_old (hm : R.Mid st) {c : Nat} (hn : ¬ R.Old (R.heap.cell c)) :
    st.heap.cell c = R.heap.cell c := by
  rcases hm.cell c with e | e
  · exact e
  · rwa [renew_of_not_old hn] at e

/-- A cell that holds an old function has not been written. -/
theorem Mid.cell_of_old (hm : R.Mid st) (hapart : R.Apart) {u c : Nat} {x : String}
    (ho : R.After (.func u)) (hx : (x, c) ∈ R.heap.closure u) (hold : R.Old (st.heap.cell c)) :
    st.heap.cell c = R.heap.cell c := by
  rcases hm.cell c with e | e
  · exact e
  · exact absurd (e ▸ hold) (hapart.renewed ho (.upvalue hx))

/-- The object needs nothing more; in a plain heap its references are exactly the renewed ones. -/
structure Done (R : Replacement) (st : State) (o : Value) : Prop where
  good : R.Apart → ∀ r, Refers st.heap o r → R.Good st r
  covers : ∀ r, Refers R.heap o r → ¬ R.Old r → R.Met st r
  renewed : R.Plain → ∀ t k, o = .table t → R.heap.get t k ≠ .nil →
    st.heap.get t (R.renew k) = R.renew (R.heap.get t k)

/-- What holds from `st` to `s`. -/
structure Across (R : Replacement) (st s : State) : Prop where
  mid : R.Mid s
  grows : st.replaced_obj ⊆ s.replaced_obj
  tables : ∀ t, .table t ∈ st.replaced_obj → ∀ k, s.heap.get t k = st.heap.get t k
  steady : ∀ c, ¬ R.Old (st.heap.cell c) → s.heap.cell c = st.heap.cell c

theorem Across.trans (h₁ : R.Across st s) (h₂ : R.Across s s') : R.Across st s' where
  mid := h₂.mid
  grows := List.Subset.trans h₁.grows h₂.grows
  tables t ht k := (h₂.tables t (h₁.grows ht) k).trans (h₁.tables t ht k)
  steady c hc := by
    have e := h₁.steady c hc
    rw [h₂.steady c (by rwa [e]), e]

theorem Across.good (ha : R.Across st s) {c : Nat} (hc : R.Good st (st.heap.cell c)) :
    R.Good s (s.heap.cell c) := by
  rw [ha.steady c hc.1]
  exact hc.mono ha.grows

/-- What is done stays so. -/
theorem Done.across {o : Value} (hd : R.Done st o) (hm : R.Mid st) (ho : o ∈ st.replaced_obj)
    (ha : R.Across st s) : R.Done s o where
  good hapart r hr := by
    cases hr with
    | key hk =>
      rw [ha.tables _ ho] at hk
      exact (hd.good hapart _ (.key hk)).mono ha.grows
    | value hk =>
      rw [ha.tables _ ho] at hk ⊢
      exact (hd.good hapart _ (.value hk)).mono ha.grows
    | metatable ht =>
      rw [ha.mid.metatable, ← hm.metatable] at ht
      exact (hd.good hapart _ (.metatable ht)).mono ha.grows
    | upvalue hx =>
      rw [ha.mid.closure, ← hm.closure] at hx
      exact ha.good (hd.good hapart _ (.upvalue hx))
  covers r hr hn := (hd.covers r hr hn).mono ha.grows
  renewed hplain t k e hk := by
    rw [ha.tables t (e ▸ ho)]
    exact hd.renewed hplain t k e hk

/-- All that has been met since `seen` is done. -/
def Finished (R : Replacement) (seen : List Value) (s : State) : Prop :=
  ∀ o ∈ s.replaced_obj, o ∈ seen ∨ R.Done s o

/-- The cells that are written belong to functions that are met on the way. -/
def Changes (R : Replacement) (st s : State) : Prop :=
  ∀ c, s.heap.cell c ≠ st.heap.cell c → ∃ u x, .func u ∈ s.replaced_obj ∧
    .func u ∉ st.replaced_obj ∧ (x, c) ∈ R.heap.closure u

theorem Changes.trans (h₁ : R.Changes st s) (h₂ : R.Changes s s')
    (hg : st.replaced_obj ⊆ s.replaced_obj) (hg' : s.replaced_obj ⊆ s'.replaced_obj) :
    R.Changes st s' := by
  intro c hc
  by_cases e : s'.heap.cell c = s.heap.cell c
  · obtain ⟨u, x, hu, hn, hx⟩ := h₁ c (e ▸ hc)
    exact ⟨u, x, hg' hu, hn, hx⟩
  · obtain ⟨u, x, hu, hn, hx⟩ := h₂ c e
    exact ⟨u, x, hu, fun hm => hn (hg hm), hx⟩

/-- What a call does. -/
structure Called (R : Replacement) (obj : Value) (st s : State) : Prop where
  across : R.Across st s
  changes : R.Changes st s
  finished : R.Finished st.replaced_obj s
  met : R.Met s obj

/-- A state while `cur` is gone through, which was met in `st`. -/
structure Within (R : Replacement) (cur : Value) (st s : State) : Prop where
  across : R.Across st s
  changes : R.Changes st s
  finished : R.Finished (cur :: st.replaced_obj) s
  met : cur ∈ s.replaced_obj
  fresh : cur ∉ st.replaced_obj

namespace Within

variable {cur : Value}

theorem after (hw : R.Within cur st s) : R.After cur := hw.across.mid.after _ hw.met

theorem mark (hm : R.Mid st) (hc : R.After cur) (hv : R.Plain → R.Visits cur)
    (hn : cur ∉ st.replaced_obj) : R.Within cur st (st.mark cur) where
  across := by
    have hmem : ∀ {P : Value → Prop}, (∀ o ∈ st.replaced_obj, P o) → P cur →
        ∀ o ∈ (st.mark cur).replaced_obj, P o := by
      intro P hold hcur o ho
      rcases List.mem_cons.mp ho with rfl | ho
      · exact hcur
      · exact hold o ho
    refine ⟨⟨hm.closure, hm.metatable, hm.origin, fun t ht => ?_, hm.cell, fun c hc => ?_,
      hmem hm.after hc, fun hp => hmem (hm.visits hp) (hv hp)⟩, fun _ => List.mem_cons_of_mem _,
      fun _ _ _ => rfl, fun _ _ => rfl⟩
    · exact hm.untouched t fun h => ht (List.mem_cons_of_mem _ h)
    · obtain ⟨u, x, hu, hx⟩ := hm.changed c hc
      exact ⟨u, x, List.mem_cons_of_mem _ hu, hx⟩
  changes c hc := absurd rfl hc
  finished _ ho := .inl ho
  met := List.mem_cons_self
  fresh := hn

theorem call (hw : R.Within cur st s) {obj : Value} (hc : R.Called obj s s') :
    R.Within cur st s' where
  across := hw.across.trans hc.across
  changes := hw.changes.trans hc.changes hw.across.grows hc.across.grows
  finished o ho := by
    rcases hc.finished o ho with ho | hd
    · exact (hw.finished o ho).imp_right fun hd => hd.across hw.across.mid ho hc.across
    · exact .inr hd
  met := hc.across.grows hw.met
  fresh := hw.fresh

/-- The function writes a cell of its own. -/
theorem setCell {u : Nat} {x : String} {c g f : Nat} (hw : R.Within (.func u) st s)
    (hx : (x, c) ∈ R.heap.closure u) (hg : s.heap.cell c = .func g)
    (hl : R.updated_func_map.lookup g = some f) (hcell : s.heap.cell c = R.heap.cell c) :
    R.Within (.func u) st { s with heap := s.heap.setCell c (.func f) } := by
  have hm := hw.across.mid
  have hold : R.Old (s.heap.cell c) := hg ▸ old_func hl
  have hrenew : .func f = R.renew (R.heap.cell c) := by
    rw [← hcell, hg, renew_func hl]
  have hother : ∀ c', c' ≠ c → (s.heap.setCell c (.func f)).cell c' = s.heap.cell c' := by
    intro c' hne
    rw [Heap.cell_setCell, if_neg hne]
  have hstep : R.Across s { s with heap := s.heap.setCell c (.func f) } := by
    refine ⟨⟨hm.closure, hm.metatable, hm.origin, hm.untouched, fun c' => ?_, fun c' hc' => ?_,
      hm.after, hm.visits⟩, fun _ => id, fun _ _ _ => rfl, fun c' hn => ?_⟩
    · show (s.heap.setCell c (.func f)).cell c' = R.heap.cell c' ∨ _
      rw [Heap.cell_setCell]
      split <;> rename_i e
      · subst e
        exact .inr hrenew
      · exact hm.cell c'
    · by_cases e : c' = c
      · subst e
        exact ⟨u, x, hw.met, hx⟩
      · exact hm.changed c' ((hother c' e).symm.trans_ne hc')
    · exact hother c' fun e => hn (e ▸ hold)
  refine ⟨hw.across.trans hstep, fun c' hc' => ?_, fun o ho => (hw.finished o ho).imp_right
    fun hd => hd.across hm ho hstep, hw.met, hw.fresh⟩
  by_cases e : c' = c
  · subst e
    exact ⟨u, x, hw.met, hw.fresh, hx⟩
  · exact hw.changes c' ((hother c' e).symm.trans_ne hc')

/-- The table writes a field of its own. -/
theorem set {t : Nat} {k v : Value} (hw : R.Within (.table t) st s)
    (ho : v ≠ .nil → ∃ k₀, R.heap.get t k₀ ≠ .nil ∧ (k = k₀ ∨ k = R.renew k₀) ∧
      (v = R.heap.get t k₀ ∨ v = R.renew (R.heap.get t k₀))) :
    R.Within (.table t) st { s with heap := s.heap.set t k v } := by
  have hm := hw.across.mid
  have hother : ∀ t' k', t' ≠ t → (s.heap.set t k v).get t' k' = s.heap.get t' k' := by
    intro t' k' ht
    rw [Heap.get_set, if_neg fun e => ht e.1]
  refine ⟨⟨⟨hm.closure, fun t' => ?_, fun t' k' hk' => ?_, fun t' ht' k' => ?_, hm.cell,
    hm.changed, hm.after, hm.visits⟩, hw.across.grows, fun t' ht' k' => ?_, hw.across.steady⟩,
    hw.changes, fun o ho' => ?_, hw.met, hw.fresh⟩
  · show (s.heap.set t k v).metatable t' = R.heap.metatable t'
    rw [Heap.metatable_set]
    exact hm.metatable t'
  · dsimp only at hk' ⊢
    rw [Heap.get_set] at hk' ⊢
    split at hk' <;> rename_i e
    · obtain ⟨rfl, rfl⟩ := e
      rw [if_pos ⟨rfl, rfl⟩]
      exact ho hk'
    · rw [if_neg e]
      exact hm.origin t' k' hk'
  · show (s.heap.set t k v).get t' k' = R.heap.get t' k'
    rw [hother t' k' fun e => ht' (e ▸ hw.met)]
    exact hm.untouched t' ht' k'
  · show (s.heap.set t k v).get t' k' = st.heap.get t' k'
    rw [hother t' k' fun e => hw.fresh (e ▸ ht')]
    exact hw.across.tables t' ht' k'
  · by_cases e : o = .table t
    · exact .inl (e ▸ List.mem_cons_self)
    refine (hw.finished o ho').imp_right fun hd => ⟨fun hapart r hr => ?_, hd.covers,
      fun hp t' k' e' hk' => ?_⟩
    · cases hr with
      | @key t' k' hk =>
        have ht : t' ≠ t := fun e' => e (by rw [e'])
        rw [hother t' _ ht] at hk
        exact hd.good hapart _ (.key hk)
      | @value t' k' hk =>
        have ht : t' ≠ t := fun e' => e (by rw [e'])
        rw [hother t' _ ht] at hk ⊢
        exact hd.good hapart _ (.value hk)
      | metatable ht =>
        rw [Heap.metatable_set] at ht
        exact hd.good hapart _ (.metatable ht)
      | upvalue hx => exact hd.good hapart _ (.upvalue hx)
    · have ht : t' ≠ t := fun e'' => e (e'' ▸ e')
      exact (hother t' _ ht).trans (hd.renewed hp t' k' e' hk')

end Within

end Replacement

end SkynetHotfix.RawReplacer
