import SkynetHotfix.RawReplacer.Visits

/-!
# Old functions are replaced

The loops of `replace_functions` leave the object that they go through `Done`,
and with it all that they meet on the way (`run_called`). So a `Complete`
replacement leaves no old function where it can be reached, and, in a plain
heap, only a complete one does (`clean_of_complete`, `complete_of_clean`).
-/

namespace SkynetHotfix.RawReplacer

open Lua
open FunctionsReplacer (State FuncMap New newVersion renew replaceUpvalue)

namespace Replacement

variable {R : Replacement} {rec : Value → State → Result State} {st s s' : State}

/-- The calls of a body do what calls do. -/
def Calls (R : Replacement) (rec : Value → State → Result State) : Prop :=
  ∀ obj s s', R.Mid s →
    (Object obj → R.env.protected_ obj = false → R.After obj ∧ (R.Plain → R.Visits obj)) →
    rec obj s = .ok s' → R.Called obj s s'

/-- A call for what an object refers to from the start. -/
theorem Within.ref {cur obj : Value} (hrec : R.Calls rec) (hw : R.Within cur st s)
    (hr : Refers R.heap cur obj) (hn : ¬ R.Old obj) (hu : rec obj s = .ok s') :
    R.Called obj s s' :=
  hrec obj s s' hw.across.mid (fun _ hp =>
    ⟨.step hw.after ⟨obj, hr, (renew_of_not_old hn).symm⟩ hp, fun hplain =>
      .step (hw.across.mid.visits hplain _ hw.met) ⟨hr, hn⟩ hp⟩) hu

/-! ## Functions -/

/-- An upvalue that the loop has passed. -/
def Passed (R : Replacement) (a : String × Nat) (s : State) : Prop :=
  (R.Apart → R.Good s (s.heap.cell a.2)) ∧
    (¬ R.Old (R.heap.cell a.2) → R.Met s (R.heap.cell a.2))

/-- The loop over the upvalues of `u`, of which `l` are left: in a plain heap no other function has
written their cells. -/
structure Passing (R : Replacement) (u : Nat) (st : State) (l : List (String × Nat)) (s : State) :
    Prop where
  within : R.Within (.func u) st s
  mem : ∀ a ∈ l, a ∈ R.heap.closure u
  passed : ∀ a ∈ R.heap.closure u, a ∈ l ∨ R.Passed a s
  single : R.Plain → ∀ c, R.Old (R.heap.cell c) → (l.map Prod.snd).count c ≤ 1
  left : R.Plain → ∀ a ∈ l, R.Old (R.heap.cell a.2) → s.heap.cell a.2 = R.heap.cell a.2

/-- What is passed stays so. -/
theorem Passed.call {obj : Value} {a : String × Nat} (hp : R.Passed a s)
    (hc : R.Called obj s s') : R.Passed a s' :=
  ⟨fun hapart => hc.across.good (hp.1 hapart), fun hn => (hp.2 hn).mono hc.across.grows⟩

theorem Passed.setCell {a : String × Nat} {c : Nat} {v : Value} (hp : R.Passed a s)
    (hv : R.Apart → R.Good s v) : R.Passed a { s with heap := s.heap.setCell c v } := by
  refine ⟨fun hapart => ?_, hp.2⟩
  show R.Good s ((s.heap.setCell c v).cell a.2)
  rw [Heap.cell_setCell]
  split
  · exact hv hapart
  · exact hp.1 hapart

/-- A cell in which the loop finds an old function has not been written. -/
theorem Passing.unwritten (S : R.Sound) {u c : Nat} {x : String} {l : List (String × Nat)}
    (hs : R.Passing u st ((x, c) :: l) s) (hold : R.Old (s.heap.cell c)) :
    s.heap.cell c = R.heap.cell c := by
  have hm := hs.within.across.mid
  by_cases hn : R.Old (R.heap.cell c)
  · rcases S.once with hapart | hplain
    · exact hm.cell_of_old hapart hs.within.after (hs.mem _ List.mem_cons_self) hold
    · exact hs.left hplain _ List.mem_cons_self hn
  · exact hm.cell_of_not_old hn

/-- The loop writes the cell. -/
theorem Passing.setCell (S : R.Sound) {u c g f : Nat} {x : String} {l : List (String × Nat)}
    (hs : R.Passing u st ((x, c) :: l) s) (hg : s.heap.cell c = .func g)
    (hl : R.updated_func_map.lookup g = some f) :
    R.Passing u st l { s with heap := s.heap.setCell c (.func f) } := by
  have hw := hs.within
  have hm := hw.across.mid
  have hx := hs.mem _ List.mem_cons_self
  have hold : R.Old (s.heap.cell c) := hg ▸ old_func hl
  have hcell := hs.unwritten S hold
  have hf : R.Apart → R.Good s (.func f) := by
    intro hapart
    have hgood : R.Good s (R.renew (R.heap.cell c)) :=
      hapart.good hw.after (.upvalue hx) fun hn => absurd (hcell ▸ hold) hn
    rwa [← hcell, hg, renew_func hl] at hgood
  refine ⟨hw.setCell hx hg hl hcell, fun a ha => hs.mem a (List.mem_cons_of_mem _ ha),
    fun a ha => ?_, fun hp c' hc' => ?_, fun hp a ha ho => ?_⟩
  · rcases hs.passed a ha with ha | hpa
    · rcases List.mem_cons.mp ha with rfl | ha
      · refine .inr ⟨fun hapart => ?_, fun hn => absurd (hcell ▸ hold) hn⟩
        show R.Good s ((s.heap.setCell c (.func f)).cell c)
        rw [Heap.cell_setCell, if_pos rfl]
        exact hf hapart
      · exact .inl ha
    · exact .inr (hpa.setCell hf)
  · have := hs.single hp c' hc'
    rw [List.map_cons, List.count_cons] at this
    omega
  · -- The cell is not met a second time.
    have hne : a.2 ≠ c := by
      intro e
      have hcount := hs.single hp c (hcell ▸ hold)
      have hmem := List.count_pos_iff.mpr (List.mem_map_of_mem (f := Prod.snd) ha)
      rw [e] at hmem
      rw [List.map_cons, List.count_cons] at hcount
      simp only [beq_self_eq_true, if_true] at hcount
      omega
    show (s.heap.setCell c (.func f)).cell a.2 = R.heap.cell a.2
    rw [Heap.cell_setCell, if_neg hne]
    exact hs.left hp a (List.mem_cons_of_mem _ ha) ho

/-- The loop calls for the value of the cell. -/
theorem Passing.call {u c : Nat} {x : String} {l : List (String × Nat)}
    (hs : R.Passing u st ((x, c) :: l) s) (hn : ¬ R.Old (s.heap.cell c))
    (hc : R.Called (s.heap.cell c) s s') : R.Passing u st l s' := by
  have hw := hs.within
  have hm := hw.across.mid
  refine ⟨hw.call hc, fun a ha => hs.mem a (List.mem_cons_of_mem _ ha), fun a ha => ?_,
    fun hp c' hc' => ?_, fun hp a ha ho => ?_⟩
  · rcases hs.passed a ha with ha | hpa
    · rcases List.mem_cons.mp ha with rfl | ha
      · refine .inr ⟨fun _ => ?_, fun hn' => hm.cell_of_not_old hn' ▸ hc.met⟩
        show R.Good s' (s'.heap.cell c)
        rw [hc.across.steady c hn]
        exact ⟨hn, .inl hc.met⟩
      · exact .inl ha
    · exact .inr (hpa.call hc)
  · have := hs.single hp c' hc'
    rw [List.map_cons, List.count_cons] at this
    omega
  · -- The functions that are met in the call do not have the cell.
    rw [← hs.left hp a (List.mem_cons_of_mem _ ha) ho]
    by_contra hne
    obtain ⟨u', x', hu', hnew, hx'⟩ := hc.changes a.2 hne
    have ha' := hs.mem a (List.mem_cons_of_mem _ ha)
    have e := hp.owner u u' a.1 x' a.2 hw.after (hc.across.mid.after _ hu') ha' hx' ho
    exact hnew (e ▸ hw.met)

theorem Passing.turn (S : R.Sound) (hrec : R.Calls rec) {u : Nat} {a : String × Nat}
    {l : List (String × Nat)} (hs : R.Passing u st (a :: l) s)
    (hk : replaceUpvalue R.updated_func_map rec s a = .ok s') : R.Passing u st l s' := by
  obtain ⟨x, c⟩ := a
  have hw := hs.within
  have hm := hw.across.mid
  have hx := hs.mem _ List.mem_cons_self
  rcases replaceUpvalue_ok hk with ⟨g, f, hg, hl, rfl⟩ | ⟨hn, hr⟩
  · exact hs.setCell S hg hl
  have hn : ¬ R.Old (s.heap.cell c) := fun ho => ho hn
  refine hs.call hn (hrec _ s s' hm (fun _ hp => ⟨?_, fun hplain => ?_⟩) hr)
  · exact hm.after_of_refers hw.after (.upvalue (hm.closure ▸ hx)) hn hp
  · have hn' : ¬ R.Old (R.heap.cell c) := fun ho =>
      hn (hs.left hplain _ List.mem_cons_self ho ▸ ho)
    rw [hm.cell_of_not_old hn'] at hp ⊢
    exact .step (hm.visits hplain _ hw.met) ⟨.upvalue hx, hn'⟩ hp

theorem upvalues_done (S : R.Sound) (hrec : R.Calls rec) {u : Nat} (hm : R.Mid st)
    (hw : R.Within (.func u) st s) (hcell : s.heap.cell = st.heap.cell)
    (hu : replaceFunctionsInUpvalues R.updated_func_map rec u s = .ok s') :
    R.Within (.func u) st s' ∧ R.Done s' (.func u) := by
  rw [replaceFunctionsInUpvalues, hw.across.mid.closure] at hu
  have hpassing : R.Passing u st (R.heap.closure u) s := by
    refine ⟨hw, fun _ => id, fun _ ha => .inl ha, fun hp c hc => hp.single u c hw.after hc,
      fun hp a ha ho => ?_⟩
    rw [hcell]
    by_contra hne
    obtain ⟨u', x', hu', hx'⟩ := hm.changed a.2 hne
    have e := hp.owner u u' a.1 x' a.2 hw.after (hm.after _ hu') ha hx' ho
    exact hw.fresh (e ▸ hu')
  have hs := Fuel.foldlM_rest (P := R.Passing u st) (fun a l s s' hs hk => hs.turn S hrec hk)
    hpassing hu
  have hpassed := fun a ha => (hs.passed a ha).resolve_left List.not_mem_nil
  refine ⟨hs.within, fun hapart r hr => ?_, fun r hr hn => ?_, fun _ _ _ e => by cases e⟩
  · cases hr with
    | upvalue hx =>
      rw [hs.within.across.mid.closure] at hx
      exact (hpassed _ hx).1 hapart
  · cases hr with
    | upvalue hx => exact (hpassed _ hx).2 hn

/-! ## Tables -/

/-- What a turn of the first loop does with its key, which has not been written before. -/
structure Turned (R : Replacement) (t : Nat) (k : Value) (st s : State) (new : New) (s' : State)
    (new' : New) : Prop where
  within : R.Within (.table t) st s'
  grows : s.replaced_obj ⊆ s'.replaced_obj
  other : ∀ k', k' ≠ k → s'.heap.get t k' = s.heap.get t k'
  stays : ¬ R.Old k → R.Met s' k ∧ new' = new ∧ s'.heap.get t k = R.renew (R.heap.get t k)
  goes : ∀ g f, k = .func g → R.updated_func_map.lookup g = some f →
    s'.heap.get t k = .nil ∧ new' = new.insert f (R.renew (R.heap.get t k))

theorem Turned.call {t : Nat} {k obj : Value} {new new' : New} {s₁ : State}
    (ht : R.Turned t k st s new s₁ new') (hc : R.Called obj s₁ s') :
    R.Turned t k st s new s' new' := by
  have hget := hc.across.tables t ht.within.met
  refine ⟨ht.within.call hc, List.Subset.trans ht.grows hc.across.grows, fun k' hk' => ?_,
    fun hn => ?_, fun g f e hl => ?_⟩
  · rw [hget, ht.other k' hk']
  · rw [hget]
    obtain ⟨hm, hnew, e⟩ := ht.stays hn
    exact ⟨hm.mono hc.across.grows, hnew, e⟩
  · rw [hget]
    exact ht.goes g f e hl

theorem field_turned (hrec : R.Calls rec) {t : Nat} {k : Value} {new new' : New}
    (hw : R.Within (.table t) st s) (hk : s.heap.get t k = R.heap.get t k)
    (hn : R.heap.get t k ≠ .nil)
    (hu : replaceField R.updated_func_map rec t (s, new) k = .ok (s', new')) :
    R.Turned t k st s new s' new' ∧ (¬ R.Old (R.heap.get t k) → R.Met s' (R.heap.get t k)) := by
  rcases replaceField_ok hu with ⟨hnil, -, -⟩ | ⟨-, s₁, h₁, h₂⟩
  · exact absurd (hk.symm.trans hnil) hn
  rw [hk] at h₁ h₂
  have hget : ∀ (v : Value) k', (s.heap.set t k v).get t k' = if k' = k then v
      else s.heap.get t k' := by
    intro v k'
    simp [Heap.get_set]
  have hfirst : R.Turned t k st s new s₁ new' := by
    rcases h₁ with ⟨g, f, rfl, hl, rfl, rfl⟩ | ⟨hold, rfl, h₁⟩
    · refine ⟨hw.set fun e => absurd rfl e, fun _ => id, fun k' hk' => ?_, fun ho => ?_,
        fun g' f' e hl' => ⟨?_, ?_⟩⟩
      · exact (hget .nil k').trans (if_neg hk')
      · exact absurd (old_func hl) ho
      · exact (hget .nil _).trans (if_pos rfl)
      · cases e
        cases hl.symm.trans hl'
        rfl
    · have hold : ¬ R.Old k := fun ho => ho hold
      have hw₁ := hw.set (k := k) (v := R.renew (R.heap.get t k)) fun _ =>
        ⟨k, hn, .inl rfl, .inr rfl⟩
      have hc := hw₁.ref hrec (.key hn) hold h₁
      have hfields := hc.across.tables t hw₁.met
      refine ⟨hw₁.call hc, hc.across.grows, fun k' hk' => ?_, fun _ => ⟨hc.met, rfl, ?_⟩,
        fun g f e hl => ?_⟩
      · exact (hfields k').trans ((hget _ k').trans (if_neg hk'))
      · exact (hfields k).trans ((hget _ k).trans (if_pos rfl))
      · exact absurd (e ▸ old_func hl) hold
  rcases h₂ with ⟨hsome, rfl⟩ | ⟨hold, h₂⟩
  · refine ⟨hfirst, fun ho => absurd ?_ ho⟩
    intro e
    rw [e] at hsome
    cases hsome
  · have hc := hfirst.within.ref hrec (.value hn) (fun ho => ho hold) h₂
    exact ⟨hfirst.call hc, fun _ => hc.met⟩

/-- The first loop, of whose keys `l` are left. -/
structure Going (R : Replacement) (t : Nat) (st s₀ : State) (l : List Value)
    (acc : State × New) : Prop where
  within : R.Within (.table t) st acc.1
  grows : s₀.replaced_obj ⊆ acc.1.replaced_obj
  nodup : l.Nodup
  left : ∀ k ∈ l, acc.1.heap.get t k = R.heap.get t k ∧ R.heap.get t k ≠ .nil
  passed : R.Apart → ∀ k ∉ l, acc.1.heap.get t k ≠ .nil →
    R.Good acc.1 k ∧ R.Good acc.1 (acc.1.heap.get t k)
  met : ∀ k ∉ l, R.heap.get t k ≠ .nil →
    (¬ R.Old k → R.Met acc.1 k ∧ acc.1.heap.get t k = R.renew (R.heap.get t k)) ∧
    (¬ R.Old (R.heap.get t k) → R.Met acc.1 (R.heap.get t k))
  new : ∀ f v, acc.2.lookup f = some v → ∃ g, R.updated_func_map.lookup g = some f ∧
    R.heap.get t (.func g) ≠ .nil ∧ v = R.renew (R.heap.get t (.func g)) ∧
    (R.Apart → R.Good acc.1 v)
  moved : R.Plain → ∀ g f, .func g ∉ l → R.heap.get t (.func g) ≠ .nil →
    R.updated_func_map.lookup g = some f →
    acc.2.lookup f = some (R.renew (R.heap.get t (.func g)))

theorem Going.turn (hrec : R.Calls rec) {t : Nat} {s₀ : State} {k : Value}
    {l : List Value} {acc acc' : State × New} (hg : R.Going t st s₀ (k :: l) acc)
    (hu : replaceField R.updated_func_map rec t acc k = .ok acc') :
    R.Going t st s₀ l acc' := by
  obtain ⟨s, new⟩ := acc
  obtain ⟨s', new'⟩ := acc'
  obtain ⟨hk, hn⟩ := hg.left k List.mem_cons_self
  obtain ⟨hkl, hnodup⟩ := List.nodup_cons.mp hg.nodup
  obtain ⟨ht, hv⟩ := field_turned hrec hg.within hk hn hu
  have hafter := hg.within.after
  have hgood : R.Apart → R.Good s' (R.renew (R.heap.get t k)) := fun hapart =>
    hapart.good hafter (.value hn) hv
  have hrest : ∀ {k'}, k' ∉ l → k' ≠ k → k' ∉ k :: l := fun hk' e hm =>
    hk' ((List.mem_cons.mp hm).resolve_left e)
  refine ⟨ht.within, List.Subset.trans hg.grows ht.grows, hnodup, fun k' hk' => ?_,
    fun hapart k' hk' hn' => ?_, fun k' hk' hn' => ?_, fun f v hf => ?_,
    fun hp g f hgl hgn hl => ?_⟩
  · have hne : k' ≠ k := fun e => hkl (e ▸ hk')
    dsimp only
    rw [ht.other k' hne]
    exact hg.left k' (List.mem_cons_of_mem _ hk')
  · dsimp only at hn' ⊢
    by_cases e : k' = k
    · subst e
      rcases R.renew_cases k' with ⟨hold, -⟩ | ⟨g, f, e, hl, -⟩
      · obtain ⟨hm, -, e⟩ := ht.stays hold
        rw [e]
        exact ⟨⟨hold, .inl hm⟩, hgood hapart⟩
      · exact absurd (ht.goes g f e hl).1 hn'
    · rw [ht.other k' e] at hn' ⊢
      obtain ⟨h₁, h₂⟩ := hg.passed hapart k' (hrest hk' e) hn'
      exact ⟨h₁.mono ht.grows, h₂.mono ht.grows⟩
  · dsimp only
    by_cases e : k' = k
    · subst e
      exact ⟨fun hold => ⟨(ht.stays hold).1, (ht.stays hold).2.2⟩, hv⟩
    · obtain ⟨h₁, h₂⟩ := hg.met k' (hrest hk' e) hn'
      rw [ht.other k' e]
      exact ⟨fun hold => ⟨(h₁ hold).1.mono ht.grows, (h₁ hold).2⟩,
        fun hold => (h₂ hold).mono ht.grows⟩
  · have hbefore : new.lookup f = some v → ∃ g, R.updated_func_map.lookup g = some f ∧
        R.heap.get t (.func g) ≠ .nil ∧ v = R.renew (R.heap.get t (.func g)) ∧
        (R.Apart → R.Good s' v) := by
      intro hf
      obtain ⟨g, hl, hg', hv', hgd⟩ := hg.new f v hf
      exact ⟨g, hl, hg', hv', fun hapart => (hgd hapart).mono ht.grows⟩
    dsimp only at hf
    rcases R.renew_cases k with ⟨hold, -⟩ | ⟨g, f', rfl, hl, -⟩
    · rw [(ht.stays hold).2.1] at hf
      exact hbefore hf
    · rw [(ht.goes g f' rfl hl).2] at hf
      by_cases e : f = f'
      · subst e
        rw [AList.lookup_insert] at hf
        cases hf
        exact ⟨g, hl, hn, rfl, hgood⟩
      · rw [AList.lookup_insert_ne e] at hf
        exact hbefore hf
  · dsimp only
    by_cases e : .func g = k
    · subst e
      rw [(ht.goes g f rfl hl).2, AList.lookup_insert]
    · have hbefore := hg.moved hp g f (hrest hgl e) hgn hl
      rcases R.renew_cases k with ⟨hold, -⟩ | ⟨g', f', rfl, hl', -⟩
      · rw [(ht.stays hold).2.1]
        exact hbefore
      · -- The two keys do not become one.
        have hne : f ≠ f' := by
          rintro rfl
          exact e (hp.keys t _ _ hafter hgn hn ((renew_func hl).trans (renew_func hl').symm))
        rw [(ht.goes g' f' rfl hl').2, AList.lookup_insert_ne hne]
        exact hbefore

/-- A table that hands no assignment on is written itself. -/
theorem walk_bare {h : Heap} {event : String} {hops t q : Nat} {k : Value}
    (hb : ∀ m p, h.metatable t = some m → h.get m (.str event) ≠ .table p)
    (hw : h.walk event hops t k = some q) : q = t := by
  unfold Heap.walk at hw
  split at hw
  · cases hw
    rfl
  split at hw
  · cases hw
  split at hw
  · cases hw
    rfl
  · rename_i m hm
    split at hw
    · cases hw
      rfl
    · rename_i p hp
      exact absurd hp (hb m p hm)
    · cases hw

/-- The second loop. -/
structure Assigned (R : Replacement) (t : Nat) (new : New) (st s₀ s : State) : Prop where
  within : R.Within (.table t) st s
  grows : s₀.replaced_obj ⊆ s.replaced_obj
  good : R.Apart → ∀ k, s.heap.get t k ≠ .nil → R.Good s k ∧ R.Good s (s.heap.get t k)
  other : ∀ k, (∀ f, k = .func f → new.lookup f = none) → s.heap.get t k = s₀.heap.get t k

theorem Assigned.turn (hbare : R.Bare) {t f : Nat} {s₀ : State} {new : New}
    (hfields : ∀ f v, new.lookup f = some v → ∃ g, R.updated_func_map.lookup g = some f ∧
      R.heap.get t (.func g) ≠ .nil ∧ v = R.renew (R.heap.get t (.func g)) ∧
      (R.Apart → R.Good s₀ v))
    (ha : R.Assigned t new st s₀ s) (hu : assignNew t new s f = .ok s') :
    R.Assigned t new st s₀ s' ∧
      (∀ v, new.lookup f = some v → s'.heap.get t (.func f) = v) ∧
      ∀ f', (∀ v, new.lookup f' = some v → s.heap.get t (.func f') = v) →
        ∀ v, new.lookup f' = some v → s'.heap.get t (.func f') = v := by
  rcases assignNew_ok hu with ⟨hnone, rfl⟩ | ⟨v, q, hv, hq, rfl⟩
  · refine ⟨ha, fun v hv => ?_, fun _ => id⟩
    rw [hnone] at hv
    cases hv
  obtain ⟨g, hl, hg, hv', hgood⟩ := hfields f v hv
  have hm := ha.within.across.mid
  have hafter := ha.within.after
  have e : q = t := by
    refine walk_bare (fun m p hmt hp => ?_) hq
    rw [hm.metatable] at hmt
    exact hbare t g f m p hafter hg hl hmt (hm.link hp)
  subst e
  have hget : ∀ k, (s.heap.set q (.func f) v).get q k = if k = .func f then v
      else s.heap.get q k := by
    intro k
    simp [Heap.get_set]
  have hw := ha.within.set (k := .func f) (v := v) fun _ =>
    ⟨.func g, hg, .inr (renew_func hl).symm, .inr hv'⟩
  refine ⟨⟨hw, ha.grows, fun hapart k hk => ?_, fun k hk => ?_⟩, fun v' hv'' => ?_,
    fun f' hf' v' hv'' => ?_⟩
  · dsimp only at hk ⊢
    rw [hget] at hk ⊢
    by_cases ek : k = .func f
    · rw [if_pos ek, ek]
      exact ⟨⟨hapart _ g f hafter (.key hg) hl, .inr ⟨g, f, hl, rfl⟩⟩,
        (hgood hapart).mono ha.grows⟩
    · rw [if_neg ek] at hk ⊢
      exact ha.good hapart k hk
  · refine (hget k).trans ((if_neg fun ek => ?_).trans (ha.other k hk))
    rw [hk f ek] at hv
    cases hv
  · cases hv.symm.trans hv''
    exact (hget _).trans (if_pos rfl)
  · refine (hget _).trans ?_
    split
    · rename_i ef
      cases ef
      exact Option.some.inj (hv.symm.trans hv'')
    · exact hf' v' hv''

/-- The first step, on the metatable. -/
theorem metatable_called (hrec : R.Calls rec) {t : Nat} (hw : R.Within (.table t) st s)
    (hu : rec (((s.heap.metatable t).map Value.table).getD .nil) s = .ok s') :
    R.Called (((s.heap.metatable t).map Value.table).getD .nil) s s' := by
  cases hmt : s.heap.metatable t with
  | none =>
    rw [hmt] at hu
    refine hrec _ s s' hw.across.mid (fun ho => ?_) hu
    rcases ho with ho | ho <;> cases ho
  | some m =>
    rw [hmt] at hu
    rw [hw.across.mid.metatable] at hmt
    exact hw.ref hrec (.metatable hmt) (fun ho => ho rfl) hu

theorem mem_order_iff {h : Heap} {t : Nat} (hget : ∀ k, h.get t k = R.heap.get t k) (k : Value) :
    k ∈ R.env.order h t ↔ R.heap.get t k ≠ .nil := by
  rw [(R.env.order_perm h t).mem_iff, Table.mem_keys, ← hget]
  rfl

theorem Going.start {t : Nat} (hw : R.Within (.table t) st s)
    (hget : ∀ k, s.heap.get t k = R.heap.get t k) :
    R.Going t st s (R.env.order s.heap t) (s, ∅) where
  within := hw
  grows _ := id
  nodup := (R.env.order_perm s.heap t).nodup_iff.mpr (AList.keys_nodup _)
  left k hk := ⟨hget k, (mem_order_iff hget k).mp hk⟩
  passed _ k hk hn := absurd ((mem_order_iff hget k).mpr (hget k ▸ hn)) hk
  met k hk hn := absurd ((mem_order_iff hget k).mpr hn) hk
  new f v hf := by simp at hf
  moved _ g f hk hn := absurd ((mem_order_iff hget _).mpr hn) hk

theorem Assigned.start {t : Nat} {s₀ : State} {new : New} (hg : R.Going t st s₀ [] (s, new)) :
    R.Assigned t new st s s where
  within := hg.within
  grows _ := id
  good hapart k hk := hg.passed hapart k List.not_mem_nil hk
  other _ _ := rfl

/-- What both loops have made of the field that had the key `k`. -/
theorem Assigned.renewed {t : Nat} {s₀ s₂ : State} {new : New} (hg : R.Going t st s₀ [] (s₂, new))
    (ha : R.Assigned t new st s₂ s)
    (hq : ∀ f ∈ R.env.orderNew new, ∀ v, new.lookup f = some v → s.heap.get t (.func f) = v)
    (hp : R.Plain) {k : Value} (hk : R.heap.get t k ≠ .nil) :
    s.heap.get t (R.renew k) = R.renew (R.heap.get t k) := by
  rcases R.renew_cases k with ⟨hold, e⟩ | ⟨g, f, rfl, hl, e⟩
  · rw [e, ha.other k fun f ek => ?_]
    · exact ((hg.met k List.not_mem_nil hk).1 hold).2
    -- No old key becomes a key that has been there.
    by_contra hf
    obtain ⟨v, hv⟩ := Option.ne_none_iff_exists'.mp hf
    obtain ⟨g, hl, hgn, -, -⟩ := hg.new f v hv
    have hkg := hp.keys t _ _ ha.within.after hk hgn (by rw [e, ek, renew_func hl])
    exact hold (hkg ▸ old_func hl)
  · have hv := hg.moved hp g f List.not_mem_nil hk hl
    have hmem : f ∈ R.env.orderNew new := by
      rw [(R.env.orderNew_perm new).mem_iff, ← AList.mem_keys, ← AList.lookup_isSome, hv]
      rfl
    rw [e]
    exact hq f hmem _ hv

theorem table_done (hbare : R.Bare) (hrec : R.Calls rec) {t : Nat} (hw : R.Within (.table t) st s)
    (hget : ∀ k, s.heap.get t k = R.heap.get t k)
    (hu : replaceFunctionsInTable R.env R.updated_func_map rec t s = .ok s') :
    R.Within (.table t) st s' ∧ R.Done s' (.table t) := by
  obtain ⟨s₁, s₂, new, h₁, h₂, h₃⟩ := replaceFunctionsInTable_ok hu
  have hmeta := metatable_called hrec hw h₁
  have hget₁ : ∀ k, s₁.heap.get t k = R.heap.get t k := fun k =>
    (hmeta.across.tables t hw.met k).trans (hget k)
  have hg := Fuel.foldlM_rest (P := R.Going t st s₁)
    (fun k l acc acc' hg hk => hg.turn hrec hk) (.start (hw.call hmeta) hget₁) h₂
  obtain ⟨ha, hq⟩ := Fuel.foldlM_post (P := R.Assigned t new st s₂)
    (Q := fun f s => ∀ v, new.lookup f = some v → s.heap.get t (.func f) = v)
    (fun f _ s s' hs hk => hs.turn hbare hg.new hk) (.start hg) h₃
  have hmetaMet : ∀ m, R.heap.metatable t = some m → R.Met s' (.table m) := by
    intro m hm
    have := hmeta.met
    rw [hw.across.mid.metatable, hm] at this
    exact this.mono (List.Subset.trans hg.grows ha.grows)
  refine ⟨ha.within, fun hapart r hr => ?_, fun r hr hn => ?_, fun hp t' k e hk => ?_⟩
  · cases hr with
    | key hk => exact (ha.good hapart _ hk).1
    | value hk => exact (ha.good hapart _ hk).2
    | metatable hm =>
      rw [ha.within.across.mid.metatable] at hm
      exact ⟨fun ho => ho rfl, .inl (hmetaMet _ hm)⟩
  · cases hr with
    | key hk => exact ((hg.met _ List.not_mem_nil hk).1 hn).1.mono ha.grows
    | value hk => exact ((hg.met _ List.not_mem_nil hk).2 hn).mono ha.grows
    | metatable hm => exact hmetaMet _ hm
  · cases e
    exact ha.renewed hg hq hp hk

/-! ## Runs -/

theorem Within.called {cur : Value} (hw : R.Within cur st s) (hd : R.Done s cur) :
    R.Called cur st s where
  across := hw.across
  changes := hw.changes
  finished o ho := by
    rcases hw.finished o ho with ho | hd'
    · rcases List.mem_cons.mp ho with rfl | ho
      · exact .inr hd
      · exact .inl ho
    · exact .inr hd'
  met := .inr (.inr hw.met)

theorem run_called (S : R.Sound) : ∀ fuel obj st st', R.Mid st ∧
      (Object obj → R.env.protected_ obj = false → R.After obj ∧ (R.Plain → R.Visits obj)) →
    Fuel.run (body R.env R.updated_func_map) fuel obj st = .ok st' → R.Called obj st st' := by
  refine Fuel.run_post (P := fun obj st => R.Mid st ∧
      (Object obj → R.env.protected_ obj = false → R.After obj ∧ (R.Plain → R.Visits obj)))
    (Q := fun obj st st' => R.Called obj st st') fun rec hrec obj st st' ⟨hm, hafter⟩ hu => ?_
  have hcalls : R.Calls rec := fun obj s s' hm ha hr => hrec obj s s' ⟨hm, ha⟩ hr
  rcases body_ok hu with ⟨rfl, hmet⟩ | ⟨hp, hnew, ⟨u, rfl, hu⟩ | ⟨t, rfl, hu⟩⟩
  · refine ⟨⟨hm, fun _ => id, fun _ _ _ => rfl, fun _ _ => rfl⟩, fun c hc => absurd rfl hc,
      fun o ho => .inl ho, ?_⟩
    rcases hmet with hp | hr | hty
    · exact .inl hp
    · exact .inr (.inr hr)
    · exact .inr (.inl (not_or.mpr hty))
  · obtain ⟨ha, hv⟩ := hafter (.inl rfl) hp
    obtain ⟨hw, hd⟩ := upvalues_done S hcalls hm (Within.mark hm ha hv hnew) rfl hu
    exact hw.called hd
  · obtain ⟨ha, hv⟩ := hafter (.inr rfl) hp
    obtain ⟨hw, hd⟩ := table_done S.bare hcalls (Within.mark hm ha hv hnew)
      (fun k => hm.untouched t hnew k) hu
    exact hw.called hd

/-- A state in which all roots are met, and all objects that are met are done. -/
structure Ended (R : Replacement) (s : State) : Prop where
  mid : R.Mid s
  done : ∀ o ∈ s.replaced_obj, R.Done s o
  roots : ∀ o ∈ R.env.roots R.new_obj, R.Met s o

theorem replaceAll_ended (S : R.Sound) {fuel : Nat} {h' : Heap}
    (hmap : R.updated_func_map.keys ≠ [])
    (hu : replaceAll R.env fuel R.updated_func_map R.new_obj R.heap = .ok h') :
    ∃ s, s.heap = h' ∧ R.Ended s := by
  rcases replaceAll_ok hu with ⟨hempty, -⟩ | ⟨s₁, s₂, s₃, -, h₁, h₂, h₃, rfl⟩
  · exact absurd hempty hmap
  have hroot : ∀ o ∈ R.env.roots R.new_obj, Object o → R.env.protected_ o = false →
      R.After o ∧ (R.Plain → R.Visits o) :=
    fun o ho _ hp => ⟨.root ho hp, fun _ => .root ho hp⟩
  have hm : R.Mid ⟨R.heap, []⟩ :=
    { closure := rfl
      metatable := fun _ => rfl
      origin := fun t k hk => ⟨k, hk, .inl rfl, .inl rfl⟩
      untouched := fun _ _ _ => rfl
      cell := fun _ => .inl rfl
      changed := fun _ hc => absurd rfl hc
      after := fun _ ho => absurd ho List.not_mem_nil
      visits := fun _ _ ho => absurd ho List.not_mem_nil }
  have c₁ := run_called S fuel _ _ s₁ ⟨hm, hroot R.new_obj (by simp [Env.roots])⟩ h₁
  have c₂ := run_called S fuel _ s₁ s₂
    ⟨c₁.across.mid, hroot (.table R.env.globals) (by simp [Env.roots])⟩ h₂
  have c₃ := run_called S fuel _ s₂ s₃
    ⟨c₂.across.mid, hroot (.table R.env.registry) (by simp [Env.roots])⟩ h₃
  refine ⟨s₃, rfl, c₃.across.mid, fun o ho => ?_, fun o ho => ?_⟩
  · rcases c₃.finished o ho with ho | hd
    · rcases c₂.finished o ho with ho' | hd
      · have hd := (c₁.finished o ho').resolve_left List.not_mem_nil
        exact (hd.across c₁.across.mid ho' c₂.across).across c₂.across.mid ho c₃.across
      · exact hd.across c₂.across.mid ho c₃.across
    · exact hd
  · simp only [Env.roots, List.mem_cons, List.not_mem_nil, or_false] at ho
    rcases ho with rfl | rfl | rfl
    · exact (c₁.met.mono c₂.across.grows).mono c₃.across.grows
    · exact c₂.met.mono c₃.across.grows
    · exact c₃.met

theorem object_of_refers {h : Heap} {o r : Value} (hr : Refers h o r) : Object o := by
  cases hr with
  | key => exact .inr rfl
  | value => exact .inr rfl
  | metatable => exact .inr rfl
  | upvalue => exact .inl rfl

theorem Met.mem {v : Value} (hm : R.Met s v) (ho : Object v) (hp : R.env.protected_ v = false) :
    v ∈ s.replaced_obj := by
  rcases hm with hp' | hno | hmem
  · rw [hp] at hp'
    cases hp'
  · exact absurd ho hno
  · exact hmem

namespace Ended

/-- All that is visited has been met. -/
theorem met_of_visits (E : R.Ended s) {o : Value} (hv : R.Visits o) (hobj : Object o) :
    o ∈ s.replaced_obj := by
  induction hv with
  | root ho hp => exact (E.roots _ ho).mem hobj hp
  | step _ hr hp ih =>
    have hd := E.done _ (ih (object_of_refers hr.1))
    exact (hd.covers _ hr.1 hr.2).mem hobj hp

/-- What is reached after a complete replacement does not refer to an old function. -/
theorem not_old_of_after (C : R.Complete) (E : R.Ended s) {o r : Value} (ho : R.After o)
    (hr : Refers s.heap o r) : ¬ R.Old r := by
  have hm := E.mid
  by_cases hmem : o ∈ s.replaced_obj
  · exact ((E.done o hmem).good C.apart r hr).1
  cases hr with
  | @upvalue u x c hx =>
    rw [hm.closure] at hx
    intro hold
    have hc := hm.cell_of_old C.apart ho hx hold
    obtain ⟨u', x', hv, hx'⟩ := C.cells u x c ho hx (hc ▸ hold)
    have hmet := E.met_of_visits hv (.inl rfl)
    exact ((E.done _ hmet).good C.apart _ (.upvalue (hm.closure ▸ hx'))).1 hold
  | key hk =>
    rw [hm.untouched _ hmem] at hk
    exact fun hold => hmem (E.met_of_visits (C.tables _ _ ho (.key hk) hold) (.inr rfl))
  | value hk =>
    rw [hm.untouched _ hmem] at hk ⊢
    exact fun hold => hmem (E.met_of_visits (C.tables _ _ ho (.value hk) hold) (.inr rfl))
  | metatable => exact fun hold => hold rfl

/-- In a plain heap without old functions the references are the renewed ones. -/
theorem refers_renew (hplain : R.Plain) (E : R.Ended s) (hclean : R.Clean s.heap) {o r : Value}
    (ho : Reach R.env R.new_obj s.heap o) (hr : Refers R.heap o r) :
    Refers s.heap o (R.renew r) := by
  have hm := E.mid
  cases hr with
  | @upvalue u x c hx =>
    have hx' : (x, c) ∈ s.heap.closure u := hm.closure ▸ hx
    rcases hm.cell c with e | e
    · have hn : ¬ R.Old (R.heap.cell c) := e ▸ hclean _ _ ho (.upvalue hx')
      rw [renew_of_not_old hn, ← e]
      exact .upvalue hx'
    · exact e ▸ .upvalue hx'
  | @key t _ hk =>
    by_cases hmem : .table t ∈ s.replaced_obj
    · have e := (E.done _ hmem).renewed hplain t r rfl hk
      exact .key (e ▸ renew_ne_nil hk)
    · have hk' : s.heap.get t r ≠ .nil := by rwa [hm.untouched t hmem]
      rw [renew_of_not_old (hclean _ _ ho (.key hk'))]
      exact .key hk'
  | @value t k hk =>
    by_cases hmem : .table t ∈ s.replaced_obj
    · have e := (E.done _ hmem).renewed hplain t k rfl hk
      exact e ▸ .value (e ▸ renew_ne_nil hk)
    · have e := hm.untouched t hmem k
      have hk' : s.heap.get t k ≠ .nil := e ▸ hk
      have hn : ¬ R.Old (R.heap.get t k) := e ▸ hclean _ _ ho (.value hk')
      rw [renew_of_not_old hn]
      exact e ▸ .value hk'
  | metatable hmt =>
    rw [renew_of_not_old fun ho => ho rfl]
    exact .metatable (by rwa [hm.metatable])

/-- In a plain heap what is reached after the replacement can be reached, if no old function can. -/
theorem reach_of_after (hplain : R.Plain) (E : R.Ended s) (hclean : R.Clean s.heap) {o : Value}
    (ho : R.After o) : Reach R.env R.new_obj s.heap o := by
  induction ho with
  | root ho hp => exact .root ho hp
  | step ho hr hp ih =>
    obtain ⟨r₀, hr₀, rfl⟩ := hr
    exact .step ih (E.refers_renew hplain hclean ih hr₀) hp

end Ended

/-- A complete replacement leaves no old function where it can be reached. -/
theorem clean_of_complete (hbare : R.Bare) (C : R.Complete) {fuel : Nat} {h' : Heap}
    (hu : replaceAll R.env fuel R.updated_func_map R.new_obj R.heap = .ok h') : R.Clean h' := by
  by_cases hmap : R.updated_func_map.keys = []
  · exact fun _ _ _ _ => not_old_of_keys_nil hmap
  obtain ⟨s, rfl, E⟩ := replaceAll_ended ⟨hbare, .inl C.apart⟩ hmap hu
  have hafter : ∀ o, Reach R.env R.new_obj s.heap o → R.After o := by
    intro o ho
    induction ho with
    | root ho hp => exact .root ho hp
    | step _ hr hp ih => exact E.mid.after_of_refers ih hr (E.not_old_of_after C ih hr) hp
  exact fun o r ho hr => E.not_old_of_after C (hafter o ho) hr

/-- In a plain heap, only a complete replacement does. -/
theorem complete_of_clean (hbare : R.Bare) (hplain : R.Plain) {fuel : Nat} {h' : Heap}
    (hu : replaceAll R.env fuel R.updated_func_map R.new_obj R.heap = .ok h')
    (hclean : R.Clean h') : R.Complete := by
  by_cases hmap : R.updated_func_map.keys = []
  · exact ⟨fun _ _ _ _ _ _ => not_old_of_keys_nil hmap,
      fun _ _ _ _ hold => absurd hold (not_old_of_keys_nil hmap),
      fun _ _ _ _ _ hold => absurd hold (not_old_of_keys_nil hmap)⟩
  obtain ⟨s, rfl, E⟩ := replaceAll_ended ⟨hbare, .inr hplain⟩ hmap hu
  have hm := E.mid
  refine ⟨fun o g f ho hr hl => ?_, fun t r ho hr hold => ?_, fun u x c ho hx hold => ?_⟩
  · have hreach := E.reach_of_after hplain hclean ho
    rw [← renew_func hl]
    exact hclean _ _ hreach (E.refers_renew hplain hclean hreach hr)
  · have hreach := E.reach_of_after hplain hclean ho
    refine hm.visits hplain _ (by_contra fun hmem => ?_)
    have e := hm.untouched t hmem
    cases hr with
    | key hk =>
      rw [← e] at hk
      exact hclean _ _ hreach (.key hk) hold
    | value hk =>
      rw [← e] at hk hold
      exact hclean _ _ hreach (.value hk) hold
    | metatable => exact hold rfl
  · have hreach := E.reach_of_after hplain hclean ho
    have hc : s.heap.cell c ≠ R.heap.cell c := fun e =>
      hclean _ _ hreach (.upvalue (hm.closure ▸ hx)) (e ▸ hold)
    obtain ⟨u', x', hu', hx'⟩ := hm.changed c hc
    exact ⟨u', x', hm.visits hplain _ hu', hx'⟩

end Replacement

end SkynetHotfix.RawReplacer
