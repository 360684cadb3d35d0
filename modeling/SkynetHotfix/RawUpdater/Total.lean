import SkynetHotfix.RawUpdater.Frame
import SkynetHotfix.RawUpdater.Universe

/-!
# When an update ends

`update_table` passes whatever key it has met to `string.find`, and a name with
`_FUNC` in it turns the check for what has been updated off. So an update of a
finite heap raises at a key that is neither a string nor a number, and may go
round a cycle of such names for ever; and `old_table[key]` goes by the
metatables of the old table. `run_returns` says that this is all: where the
names are `Sound`, the update returns.

The measure is the number of keys that `updated_sig` does not have yet, and
below it the rank of a comparison that is not checked.
-/

namespace SkynetHotfix.RawUpdater

open Lua
open ModuleUpdater (State Check Answer oldUpvalue findFunc metaName)

variable {env : Env} {h h' : Heap} {root : Task}

/-- The chain of `event` for the key ends within `hops`, and does not leave the tables. -/
def Ends (env : Env) (h : Heap) (root : Task) (event : String) (k : Value) : Nat → Nat → Prop
  | 0, t => h.get t k ≠ .nil
  | hops + 1, t => h.get t k ≠ .nil ∨ ∀ m v, h.metatable t = some m →
      May env h root (.holds m (.str event) v) →
      v = .nil ∨ ∃ p, v = .table p ∧ Ends env h root event k hops p

/-- The update `root` of the heap `h` meets no name that is neither a string nor a number, no
cycle of comparisons under names with `_FUNC`, and no chain of metatables that does not end. -/
structure Sound (env : Env) (h : Heap) (root : Task) : Prop where
  names : ∀ n o name, May env h root (.meets (.table n o name)) →
    env.protected_ (.table o) = false → findFunc name ≠ none
  nests : ∃ rank : Nat → Nat → Nat, ∀ n o name n' o' name',
    May env h root (.meets (.table n o name)) → env.Compares (.table n o name) →
    findFunc name = some true → Calls env h root (.table n o name) (.table n' o' name') →
    findFunc name' = some true → env.protected_ (.table o') = false → rank n' o' < rank n o
  index : ∀ n o name k v, May env h root (.meets (.table n o name)) →
    env.Compares (.table n o name) → May env h root (.holds n k v) → v ≠ .nil →
    Ends env h root "__index" k Heap.maxHops o
  newindex : ∀ n o name k v p w, May env h root (.meets (.table n o name)) →
    env.Compares (.table n o name) → May env h root (.holds n k v) → v ≠ .nil →
    May env h root (.stops "__index" o k p) → May env h root (.holds p k w) → v.type ≠ w.type →
    Ends env h root "__newindex" k Heap.maxHops o

theorem Fits.walk_isSome (hf : Fits env h root h') {event : String} {k : Value} {hops t : Nat}
    (he : Ends env h root event k hops t) : ∃ p, h'.walk event hops t k = some p := by
  induction hops generalizing t with
  | zero => exact ⟨t, by rw [Heap.walk, if_pos (hf.ne_nil he)]⟩
  | succ hops ih =>
    rw [Heap.walk]
    by_cases hk : h'.get t k ≠ .nil
    · exact ⟨t, if_pos hk⟩
    rw [if_neg hk]
    have he := Or.resolve_left he fun hn => hk (hf.ne_nil hn)
    rw [hf.metatable]
    cases hm : h.metatable t with
    | none => exact ⟨t, rfl⟩
    | some m =>
      rcases he m _ hm (hf.holds m (.str event)) with e | ⟨p, e, hp⟩
      · exact ⟨t, by dsimp only; rw [e]⟩
      · dsimp only
        rw [e]
        exact ih hp

/-! ## The pieces return -/

/-- What an update keeps: its heap fits, and its keys are the possible ones, each once. -/
structure Good (env : Env) (h : Heap) (root : Task) (st : State) : Prop where
  fits : Fits env h root st.heap
  sigs : ∀ s ∈ st.updated_sig, s ∈ signatures env h root
  nodup : st.updated_sig.Nodup

variable {rec : Task → State → Result State} {P : State → Prop}

theorem updateUpvalue_total {f g : Nat} (hm : May env h root (.meets (.func f g)))
    (he : env.Compares (.func f g)) (K : Kept env h root P)
    (hrec : ∀ t' st, Calls env h root (.func f g) t' → P st → ∃ st', rec t' st = .ok st' ∧ P st')
    {cell : Nat → Value} (hcell : ∀ c, May env h root (.cell c (cell c))) {x : String} {c : Nat}
    (hx : (x, c) ∈ h.closure f) {st : State} (hst : P st) :
    ∃ st', updateUpvalue rec ((h.closure g).map fun u => (u.1, cell u.2)) st (x, c) = .ok st' ∧
      P st' := by
  simp only [updateUpvalue, oldUpvalue_eq]
  cases hc' : lastUpvalue (h.closure g) x with
  | none => exact ⟨st, by simp [Value.truthy], hst⟩
  | some c' =>
    have hv := (K.fits st hst).mayCell c
    have hw := hcell c'
    simp only [Option.map_some, Option.getD_some]
    generalize hcv : st.heap.cell c = v at hv
    generalize cell c' = w at hw
    by_cases ht : w.truthy = true
    swap
    · exact ⟨st, by rw [if_neg ht], hst⟩
    have hcarry : ¬ (w.type = .function ∧ v.type = .function) →
        May env h root (.carried c w) := fun hn => .carry hm he hx hc' hv hw ht hn
    by_cases hty : w.type ≠ v.type
    · refine ⟨{ st with heap := st.heap.setCell c w }, by rw [if_pos ht, if_pos hty], ?_⟩
      exact K.setCell st c w hst (hcarry fun e => hty (e.1.trans e.2.symm))
    rw [if_pos ht, if_neg hty]
    split
    · exact hrec _ st (.upFunc hx hc' hv hw) hst
    · obtain ⟨st₁, h₁, hst₁⟩ := hrec _ st (.upTable hx hc' hv hw) hst
      exact ⟨_, Fuel.bind_eq_ok.mpr ⟨st₁, h₁, rfl⟩,
        K.setCell st₁ c _ hst₁ (hcarry (by simp [Value.type]))⟩
    · rename_i hff _
      refine ⟨_, rfl, K.setCell st c w hst (hcarry fun e => ?_)⟩
      cases w <;> cases v <;> simp [Value.type] at e
      exact hff _ _ rfl rfl

theorem updateField_total (hs : Sound env h root) {n o : Nat} {name : Value}
    (hm : May env h root (.meets (.table n o name))) (he : env.Compares (.table n o name))
    (K : Kept env h root P)
    (hrec : ∀ t' st, Calls env h root (.table n o name) t' → P st →
      ∃ st', rec t' st = .ok st' ∧ P st') (k : Value) {st : State} (hst : P st) :
    ∃ st', updateField rec n o st k = .ok st' ∧ P st' := by
  have hf := K.fits st hst
  have hv := hf.holds n k
  simp only [updateField]
  generalize st.heap.get n k = v at hv
  by_cases hn : v = .nil
  · exact ⟨st, by rw [if_pos hn], hst⟩
  rw [if_neg hn]
  obtain ⟨p, hp⟩ := hf.walk_isSome (hs.index n o name k v hm he hv hn)
  have hstop := hf.walk hp
  have hw := hf.holds p k
  rw [Heap.index, hp, Option.map_some]
  generalize st.heap.get p k = w at hw
  dsimp only
  by_cases hty : v.type ≠ w.type
  · obtain ⟨q, hq⟩ := hf.walk_isSome (hs.newindex n o name k v p w hm he hv hn hstop hw hty)
    rw [if_pos hty, Heap.newindex, hq, Option.map_some]
    exact ⟨_, rfl, K.set st q k v hst (.store hm he hv hn hstop hw hty (hf.walk hq))⟩
  · rw [if_neg hty]
    split
    · exact hrec _ st (.fieldFunc hv hstop hw) hst
    · exact hrec _ st (.fieldTable hv hstop hw) hst
    · exact ⟨st, rfl, hst⟩

theorem updateFields_total (hs : Sound env h root) {n o : Nat} {name : Value}
    (hm : May env h root (.meets (.table n o name))) (he : env.Compares (.table n o name))
    (K : Kept env h root P)
    (hrec : ∀ t' st, Calls env h root (.table n o name) t' → P st →
      ∃ st', rec t' st = .ok st' ∧ P st') {st : State} (hst : P st) :
    ∃ st', updateFields env rec n o name st = .ok st' ∧ P st' := by
  obtain ⟨st₁, h₁, hst₁⟩ := Fuel.foldlM_total (f := updateField rec n o)
    (l := env.order st.heap n) (fun k _ _ hst => updateField_total hs hm he K hrec k hst) hst
  rw [updateFields]
  simp only [Fuel.bind_eq_ok]
  suffices hmeta : ∃ st', updateMeta rec n o name st₁ = .ok st' ∧ P st' by
    obtain ⟨st', h', hst'⟩ := hmeta
    exact ⟨st', ⟨st₁, h₁, h'⟩, hst'⟩
  have hf := K.fits st₁ hst₁
  simp only [updateMeta, hf.metatable]
  cases ho : h.metatable o with
  | none => exact ⟨st₁, rfl, hst₁⟩
  | some o' =>
    cases hn : h.metatable n with
    | none => exact ⟨st₁, rfl, hst₁⟩
    | some n' =>
      dsimp only
      cases hname : metaName name with
      | none =>
        have := hs.names n o name hm he.1
        cases name <;> simp [metaName, findFunc] at hname this
      | some name' => exact hrec _ st₁ (.metas hn ho hname) hst₁

/-- Together with a bound on the keys it has. -/
theorem Good.kept (len : Nat) : Kept env h root fun st =>
    Good env h root st ∧ len ≤ st.updated_sig.length where
  fits _ hst := hst.1.fits
  set _ _ _ _ hst hs := ⟨⟨hst.1.fits.set hs, hst.1.sigs, hst.1.nodup⟩, hst.2⟩
  setCell _ _ _ hst hc := ⟨⟨hst.1.fits.setCell hc, hst.1.sigs, hst.1.nodup⟩, hst.2⟩

/-! ## The measure -/

theorem Good.check {st : State} (hg : Good env h root st) {t : Task}
    (hm : May env h root (.meets t)) {new_obj old_obj : Value} (ht : t.objs = (new_obj, old_obj)) :
    (checkUpdated env new_obj old_obj st = ((checkUpdated env new_obj old_obj st).1, true) ∧
        Good env h root (checkUpdated env new_obj old_obj st).1 ∧
        (checkUpdated env new_obj old_obj st).1.updated_sig.length = st.updated_sig.length) ∨
    (checkUpdated env new_obj old_obj st = ((checkUpdated env new_obj old_obj st).1, false) ∧
        new_obj ≠ old_obj ∧ Good env h root (checkUpdated env new_obj old_obj st).1 ∧
        (checkUpdated env new_obj old_obj st).1.updated_sig.length =
          st.updated_sig.length + 1) := by
  rcases checkUpdated_cases env new_obj old_obj st with ⟨-, e⟩ | ⟨-, -, e⟩ | ⟨hne, hin, e⟩ <;>
    rw [e]
  · exact .inl ⟨rfl, ⟨hg.fits, hg.sigs, hg.nodup⟩, rfl⟩
  · exact .inl ⟨rfl, ⟨hg.fits, hg.sigs, hg.nodup⟩, rfl⟩
  refine .inr ⟨rfl, hne, ⟨hg.fits, fun s hs => ?_, List.nodup_cons.mpr ⟨hin, hg.nodup⟩⟩, rfl⟩
  rcases List.mem_cons.mp hs with rfl | hs
  · exact ⟨t, st.heap, hm, hg.fits, by rw [ht]⟩
  · exact hg.sigs s hs

/-- The keys that `updated_sig` does not have yet. -/
noncomputable def unused (hf : FiniteHeap h) (env : Env) (root : Task) (st : State) : Nat :=
  (@finite_signatures env h root hf).toFinset.card - st.updated_sig.length

theorem Good.length_le (hf : FiniteHeap h) {st : State} (hg : Good env h root st) :
    st.updated_sig.length ≤ (@finite_signatures env h root hf).toFinset.card := by
  classical
  rw [← List.toFinset_card_of_nodup hg.nodup]
  refine Finset.card_le_card fun s hs => ?_
  rw [Set.Finite.mem_toFinset]
  exact hg.sigs s (List.mem_toFinset.mp hs)

/-- The height of a comparison that is not checked, over what is left of the keys; `bound` is
above every rank. -/
def height (env : Env) (rank : Nat → Nat → Nat) (bound left : Nat) : Task → Nat
  | .func _ _ => left * (bound + 2) + 1
  | .table n o name =>
    (if findFunc name = some true ∧ env.protected_ (.table o) = false then rank n o + 1 else 0) +
      (left * (bound + 2) + 1)

theorem height_mono {rank : Nat → Nat → Nat} {bound left left' : Nat} (hl : left' ≤ left)
    (t : Task) : height env rank bound left' t ≤ height env rank bound left t := by
  have hmul := Nat.mul_le_mul_right (bound + 2) hl
  cases t with
  | func f g => simp only [height]; omega
  | table n o name => simp only [height]; split <;> omega

theorem height_lt {rank : Nat → Nat → Nat} {bound left left' : Nat}
    (hb : ∀ n o name, May env h root (.meets (.table n o name)) → rank n o ≤ bound) {t : Task}
    (hm : May env h root (.meets t)) (hl : left' < left) :
    height env rank bound left' t < left * (bound + 2) + 1 := by
  have hmul : (left' + 1) * (bound + 2) ≤ left * (bound + 2) := Nat.mul_le_mul_right _ hl
  rw [Nat.succ_mul] at hmul
  cases t with
  | func f g => show left' * (bound + 2) + 1 < _; omega
  | table n o name =>
    have := hb n o name hm
    simp only [height]
    split <;> omega

/-- A call returns, keeping what is `Good`, and takes no key back. -/
def Returns (env : Env) (h : Heap) (root : Task) (st : State) (r : Result State) : Prop :=
  ∃ st', r = .ok st' ∧ Good env h root st' ∧ st.updated_sig.length ≤ st'.updated_sig.length

theorem updateFunc_returns {f g : Nat} (hm : May env h root (.meets (.func f g)))
    {st : State} (hg : Good env h root st)
    (hrec : ∀ t' st', May env h root (.meets t') → Good env h root st' →
      st.updated_sig.length < st'.updated_sig.length → Returns env h root st' (rec t' st')) :
    Returns env h root st (updateFunc env rec f g st) := by
  unfold updateFunc
  by_cases hp : env.protected_ (.func g) = true
  · exact ⟨st, if_pos hp, hg, le_rfl⟩
  rw [if_neg hp]
  rw [Bool.not_eq_true] at hp
  obtain ⟨hh, -⟩ := checkUpdated_heap env (.func f) (.func g) st
  rcases hg.check hm rfl with ⟨e, hg₁, hl⟩ | ⟨e, hne, hg₁, hl⟩
  · rw [e]
    exact ⟨_, rfl, hg₁, hl.ge⟩
  rw [e]
  generalize (checkUpdated env (.func f) (.func g) st).1 = st₁ at hg₁ hl hh ⊢
  dsimp only
  rw [State.record_heap, hg₁.fits.closure]
  have he : env.Compares (.func f g) := ⟨hp, fun e => hne (e ▸ rfl)⟩
  have hloop := Fuel.foldlM_total (l := h.closure f)
    (P := fun st' => Good env h root st' ∧ st.updated_sig.length + 1 ≤ st'.updated_sig.length)
    (f := updateUpvalue rec ((h.closure g).map fun u => (u.1, st₁.heap.cell u.2)))
    (s := st₁.record g f) ?_
    ⟨⟨hg₁.fits, hg₁.sigs, hg₁.nodup⟩, show _ ≤ st₁.updated_sig.length by omega⟩
  · obtain ⟨st', h', hg', hl'⟩ := hloop
    exact ⟨st', h', hg', by omega⟩
  · rintro ⟨x, c⟩ hx st₂ hst₂
    refine updateUpvalue_total hm he (Good.kept _) ?_ hg₁.fits.mayCell hx hst₂
    intro t' st₂ hc hst₂
    obtain ⟨st', h', hg', hl'⟩ := hrec t' st₂ (hc.meets hm he) hst₂.1 hst₂.2
    exact ⟨st', h', hg', hst₂.2.trans hl'⟩

theorem updateTable_returns (hs : Sound env h root) {n o : Nat} {name : Value}
    (hm : May env h root (.meets (.table n o name))) {st : State} (hg : Good env h root st)
    (hrec : ∀ t' st', May env h root (.meets t') → Good env h root st' →
      st.updated_sig.length < st'.updated_sig.length ∨
        (env.protected_ (.table o) = false ∧ findFunc name = some true ∧
          Calls env h root (.table n o name) t' ∧
          st.updated_sig.length ≤ st'.updated_sig.length) →
      Returns env h root st' (rec t' st')) :
    Returns env h root st (updateTable env rec n o name st) := by
  unfold updateTable
  by_cases hp : env.protected_ (.table o) = true
  · exact ⟨st, if_pos hp, hg, le_rfl⟩
  rw [if_neg hp]
  rw [Bool.not_eq_true] at hp
  cases hfind : findFunc name with
  | none => exact absurd hfind (hs.names n o name hm hp)
  | some b =>
    cases b with
    | true =>
      have he : env.Compares (.table n o name) := ⟨hp, .inl hfind⟩
      refine updateFields_total hs hm he (Good.kept st.updated_sig.length) ?_ ⟨hg, le_rfl⟩
      intro t' st₂ hc hst₂
      obtain ⟨st', h', hg', hl'⟩ :=
        hrec t' st₂ (hc.meets hm he) hst₂.1 (.inr ⟨hp, hfind, hc, hst₂.2⟩)
      exact ⟨st', h', hg', hst₂.2.trans hl'⟩
    | false =>
      dsimp only
      rcases hg.check hm rfl with ⟨e, hg₁, hl⟩ | ⟨e, hne, hg₁, hl⟩
      · rw [e]
        exact ⟨_, rfl, hg₁, hl.ge⟩
      rw [e]
      generalize (checkUpdated env (.table n) (.table o) st).1 = st₁ at hg₁ hl ⊢
      dsimp only
      have he : env.Compares (.table n o name) := ⟨hp, .inr fun e => hne (e ▸ rfl)⟩
      have hloop := updateFields_total hs hm he (Good.kept (st.updated_sig.length + 1))
        (fun t' st₂ hc hst₂ => by
          obtain ⟨st', h', hg', hl'⟩ := hrec t' st₂ (hc.meets hm he) hst₂.1 (.inl hst₂.2)
          exact ⟨st', h', hg', hst₂.2.trans hl'⟩) ⟨hg₁, by omega⟩
      obtain ⟨st', h', hg', hl'⟩ := hloop
      exact ⟨st', h', hg', by omega⟩

/-- Calls nested to some depth are enough for every call the update may make. -/
theorem run_returns (hf : FiniteHeap h) (hs : Sound env h root) :
    ∃ F, ∀ fuel ≥ F, ∀ st, Good env h root st →
      Returns env h root st (Fuel.run (body env) fuel root st) := by
  obtain ⟨rank, hrank⟩ := hs.nests
  obtain ⟨bound, hbound⟩ := ((@finite_pairs env h root hf).image
    fun p => rank p.1 p.2).bddAbove
  have hb : ∀ n o name, May env h root (.meets (.table n o name)) → rank n o ≤ bound :=
    fun n o name hm => hbound ⟨(n, o), ⟨name, hm⟩, rfl⟩
  let m (t : Task) (st : State) := height env rank bound (unused hf env root st) t
  have hdrop : ∀ {t' : Task} {st st' : State}, May env h root (.meets t') →
      Good env h root st' → st.updated_sig.length < st'.updated_sig.length →
      m t' st' < unused hf env root st * (bound + 2) + 1 := by
    intro t' st st' hm hg hl
    refine height_lt hb hm ?_
    have := hg.length_le hf
    show _ - _ < _ - _
    omega
  have htotal := Fuel.run_total (B := body env) m
    (P := fun t st => May env h root (.meets t) ∧ Good env h root st)
    (Q := fun _ st st' => Good env h root st' ∧ st.updated_sig.length ≤ st'.updated_sig.length) ?_
  · refine ⟨m root (State.start h) + 1, fun fuel hfuel st hg => ?_⟩
    refine htotal fuel root st ⟨.root, hg⟩ (lt_of_le_of_lt ?_ hfuel)
    have hu : unused hf env root st ≤ unused hf env root (State.start h) :=
      Nat.sub_le_sub_left (Nat.zero_le _) _
    exact height_mono hu root
  rintro rec t st ⟨hm, hg⟩ hrec
  cases t with
  | func f g =>
    exact updateFunc_returns hm hg fun t' st' hm' hg' hl =>
      hrec t' st' ⟨hm', hg'⟩ (hdrop hm' hg' hl)
  | table n o name =>
    refine updateTable_returns hs hm hg fun t' st' hm' hg' hl => hrec t' st' ⟨hm', hg'⟩ ?_
    rcases hl with hl | ⟨hp, hfind, hc, hl⟩
    · have := hdrop hm' hg' hl
      show _ < (if _ then _ else _) + _
      omega
    · have hu : unused hf env root st' ≤ unused hf env root st := Nat.sub_le_sub_left hl _
      have := Nat.mul_le_mul_right (bound + 2) hu
      show _ < (if _ then _ else _) + _
      rw [if_pos ⟨hfind, hp⟩]
      cases t' with
      | func f' g' => show _ * _ + 1 < _; omega
      | table n' o' name' =>
        show (if _ then _ else _) + _ < _
        by_cases hx : findFunc name' = some true ∧ env.protected_ (.table o') = false
        · rw [if_pos hx]
          have := hrank n o name n' o' name' hm ⟨hp, .inl hfind⟩ hfind hc hx.1 hx.2
          omega
        · rw [if_neg hx]
          omega

/-! ## A module of one function -/

/-- Two versions of a module, `{ f = function() return a end }`, with the value that the upvalue
`a` has in the old one and in the new one; and the tables of the module updater and of `hotfix`. -/
def oneUpvalue (old_value value : Value) : Heap where
  size := 7
  table t :=
    match t with
    | 0 => Table.empty.set (.str "m") (.table 1)
    | 1 => Table.empty.set (.str "f") (.func 1)
    | 2 => Table.empty.set (.str "f") (.func 2)
    | 3 => Table.empty.set (.str "log_debug") (.func 3)
    | 4 => Table.empty.set (.str "log_debug") (.func 3)
    | _ => Table.empty
  closure f :=
    match f with
    | 1 => [("a", 1)]
    | 2 => [("a", 2)]
    | _ => []
  cell c :=
    match c with
    | 1 => old_value
    | 2 => value
    | _ => .nil

/-- What the update may do where `a` is `5` and becomes `1`. -/
def OneUpvalue : Fact → Prop
  | .meets t => t = .table 2 1 (.str "m") ∨ t = .func 2 1
  | .holds t k v => v = (oneUpvalue (.num 5) (.num 1)).get t k
  | .stored _ _ _ => False
  | .stops _ t _ p => p = t
  | .cell c v => v = (oneUpvalue (.num 5) (.num 1)).cell c ∨ c = 2 ∧ v = .num 5
  | .carried c v => c = 2 ∧ v = .num 5

variable {old_value value : Value}

theorem oneUpvalue_get (t : Nat) (k : Value) : (oneUpvalue old_value value).get t k =
    if t = 0 ∧ k = .str "m" then .table 1
    else if t = 1 ∧ k = .str "f" then .func 1
    else if t = 2 ∧ k = .str "f" then .func 2
    else if (t = 3 ∨ t = 4) ∧ k = .str "log_debug" then .func 3 else .nil := by
  match t with
  | 0 => simp [Heap.get, oneUpvalue, Table.get_set, get_empty]
  | 1 => simp [Heap.get, oneUpvalue, Table.get_set, get_empty]
  | 2 => simp [Heap.get, oneUpvalue, Table.get_set, get_empty]
  | 3 => simp [Heap.get, oneUpvalue, Table.get_set, get_empty]
  | 4 => simp [Heap.get, oneUpvalue, Table.get_set, get_empty]
  | n + 5 => simp [Heap.get, oneUpvalue, get_empty]

theorem oneUpvalue_metatable (t : Nat) : (oneUpvalue old_value value).metatable t = none := by
  match t with
  | 0 => rfl
  | 1 => rfl
  | 2 => rfl
  | 3 => rfl
  | 4 => rfl
  | n + 5 => rfl

theorem oneUpvalue_mem {f c : Nat} {x : String}
    (hx : (x, c) ∈ (oneUpvalue old_value value).closure f) :
    x = "a" ∧ c = f ∧ (f = 1 ∨ f = 2) := by
  match f with
  | 0 => cases hx
  | 1 => simpa [oneUpvalue] using hx
  | 2 => simpa [oneUpvalue] using hx
  | n + 3 => cases hx

theorem OneUpvalue.cell_num {c : Nat} {v : Value} (hc : OneUpvalue (.cell c v)) :
    v = .nil ∨ ∃ n, v = .num n := by
  rcases hc with rfl | ⟨-, rfl⟩
  · match c with
    | 0 => exact .inl rfl
    | 1 => exact .inr ⟨5, rfl⟩
    | 2 => exact .inr ⟨1, rfl⟩
    | n + 3 => exact .inl rfl
  · exact .inr ⟨5, rfl⟩

theorem oneUpvalue_may {fact : Fact}
    (hm : May env (oneUpvalue (.num 5) (.num 1)) (.table 2 1 (.str "m")) fact) :
    OneUpvalue fact := by
  induction hm with
  | root => exact .inl rfl
  | init => rfl
  | stored _ ih => exact ih.elim
  | cell => exact .inl rfl
  | carried _ ih => exact .inr ih
  | stopHere => rfl
  | stopBare => rfl
  | stopMeta => rfl
  | hop _ hm => rw [oneUpvalue_metatable] at hm; cases hm
  | @store n o name k v p w q _ _ _ hn _ _ hty _ ih ihv ihp ihw _ =>
    rcases ih with e | e <;> cases e
    cases ihp
    cases ihv
    cases ihw
    simp [oneUpvalue_get] at hn hty
    simp [hn, Value.type] at hty
  | @fieldFunc n o name k f p g _ _ _ _ _ ih ihf ihp ihg =>
    rcases ih with e | e <;> cases e
    cases ihp
    simp only [OneUpvalue, oneUpvalue_get] at ihf ihg ⊢
    grind
  | @fieldTable n o name k n' p o' _ _ _ _ _ ih ihn =>
    rcases ih with e | e <;> cases e
    simp only [OneUpvalue, oneUpvalue_get] at ihn
    grind
  | metas _ _ hn => rw [oneUpvalue_metatable] at hn; cases hn
  | upFunc _ _ _ _ _ _ _ ihf => rcases ihf.cell_num with e | ⟨_, e⟩ <;> cases e
  | upTable _ _ _ _ _ _ _ ihn => rcases ihn.cell_num with e | ⟨_, e⟩ <;> cases e
  | carry _ _ hx hc' _ _ _ _ ih _ ihw =>
    rcases ih with e | e <;> cases e
    obtain ⟨rfl, rfl, -⟩ := oneUpvalue_mem hx
    have e : lastUpvalue ((oneUpvalue (.num 5) (.num 1)).closure 1) "a" = some 1 := by decide
    cases e.symm.trans hc'
    rcases ihw with rfl | ⟨e, -⟩
    · exact ⟨rfl, rfl⟩
    · cases e

theorem oneUpvalue_sound :
    Sound env (oneUpvalue (.num 5) (.num 1)) (.table 2 1 (.str "m")) where
  names n o name hm _ := by
    rcases oneUpvalue_may hm with e | e <;> cases e
    decide
  nests := by
    refine ⟨fun _ _ => 0, fun n o name _ _ _ hm _ hf => ?_⟩
    rcases oneUpvalue_may hm with e | e <;> cases e
    have hm : findFunc (.str "m") = some false := by decide
    rw [hm] at hf
    cases hf
  index n o name k v hm _ _ _ := by
    exact .inr fun m _ hm' => by rw [oneUpvalue_metatable] at hm'; cases hm'
  newindex n o name k v p w _ _ _ _ _ _ _ := by
    exact .inr fun m _ hm' => by rw [oneUpvalue_metatable] at hm'; cases hm'

theorem oneUpvalue_finite : FiniteHeap (oneUpvalue old_value value) where
  table := by
    refine (Set.finite_lt_nat 5).subset fun t ht => ?_
    by_contra hge
    match t, hge with
    | n + 5, _ => exact ht rfl
  closure := by
    refine (Set.finite_lt_nat 3).subset fun f hf => ?_
    by_contra hge
    match f, hge with
    | n + 3, _ => exact hf rfl
  cell := by
    refine (Set.finite_lt_nat 3).subset fun c hc => ?_
    by_contra hge
    match c, hge with
    | n + 3, _ => exact hc rfl

end SkynetHotfix.RawUpdater
