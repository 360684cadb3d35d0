import SkynetHotfix.RawUpdater.Frame
import SkynetHotfix.RawUpdater.Total

/-!
# What an update covers

An update covers every path through both versions where no two pairs of objects
print alike (`Distinct`), and no other comparison writes to the path (`Intact`).

It is a depth-first search: what has been compared is closed under the children
that are on paths (`Closed`, up to what is protected or the same), and so
everything on a path has been handled.
-/

namespace SkynetHotfix.RawUpdater

open Lua
open ModuleUpdater (State Check Answer oldUpvalue findFunc metaName)

variable {env : Env} {h : Heap} {root : Task} {n₀ o₀ : Nat}

/-- Two tables have in the same place: a function each, a table each, or a metatable each. -/
inductive Child (h : Heap) (n o : Nat) : Value → Value → Prop
  | func {k f g} : h.get n k = .func f → h.get o k = .func g → Child h n o (.func f) (.func g)
  | table {k n' o'} : h.get n k = .table n' → h.get o k = .table o' →
      Child h n o (.table n') (.table o')
  | metas {n' o'} : h.metatable n = some n' → h.metatable o = some o' →
      Child h n o (.table n') (.table o')

/-- The paths of fields and metatables that run through unprotected tables in both versions. -/
inductive Path (env : Env) (h : Heap) (n₀ o₀ : Nat) : Value → Value → Prop
  | module : Path env h n₀ o₀ (.table n₀) (.table o₀)
  | child {n o v w} : Path env h n₀ o₀ (.table n) (.table o) →
      env.protected_ (.table n) = false → env.protected_ (.table o) = false → Child h n o v w →
      Path env h n₀ o₀ v w

/-- Every old function at the end of a path is a key of the map. -/
def Covers (env : Env) (h : Heap) (n₀ o₀ : Nat) (st : State) : Prop :=
  ∀ f g, Path env h n₀ o₀ (.func f) (.func g) → f ≠ g → env.protected_ (.func g) = false →
    g ∈ st.updated_func_map

/-- What was taken for already updated had been updated itself. -/
def Known (st : State) : Prop :=
  ∀ c ∈ st.log, c.answer = .already →
    ∃ c' ∈ st.log, c'.answer = .fresh ∧ c'.new_obj = c.new_obj ∧ c'.old_obj = c.old_obj

/-- What a comparison writes to the tables of a path is what their functions and tables are
already. -/
def Intact (env : Env) (h : Heap) (root : Task) (n₀ o₀ : Nat) : Prop :=
  ∀ n o k, Path env h n₀ o₀ (.table n) (.table o) → (h.get n k).type = (h.get o k).type →
    ((h.get n k).type = .function ∨ (h.get n k).type = .table) →
    (∀ v, May env h root (.stored n k v) → v = h.get n k) ∧
    ∀ v, May env h root (.stored o k v) → v = h.get o k

/-- The two objects may be checked by their text. -/
inductive Checked (env : Env) (h : Heap) (root : Task) : Value → Value → Prop
  | func {f g} : May env h root (.meets (.func f g)) → env.protected_ (.func g) = false → f ≠ g →
      Checked env h root (.func f) (.func g)
  | table {n o name} : May env h root (.meets (.table n o name)) →
      env.protected_ (.table o) = false → findFunc name = some false → n ≠ o →
      Checked env h root (.table n) (.table o)

/-- No two pairs of objects that are checked print alike. -/
def Distinct (env : Env) (h : Heap) (root : Task) : Prop :=
  ∀ v w v' w' h₁ h₂, Checked env h root v w → Checked env h root v' w' → Fits env h root h₁ →
    Fits env h root h₂ → env.signature h₁ v w = env.signature h₂ v' w' → v = v' ∧ w = w'

/-! ## The log -/

/-- The signature of a check is that of its objects. -/
def Signs (env : Env) (h : Heap) (root : Task) (c : Check) : Prop :=
  Checked env h root c.new_obj c.old_obj ∧
    ∃ h', Fits env h root h' ∧ c.signature = env.signature h' c.new_obj c.old_obj

theorem Distinct.eq_of_signature (hd : Distinct env h root) {c c' : Check}
    (hc : Signs env h root c) (hc' : Signs env h root c') (hs : c.signature = c'.signature) :
    c.new_obj = c'.new_obj ∧ c.old_obj = c'.old_obj := by
  obtain ⟨hck, h₁, hf, e⟩ := hc
  obtain ⟨hck', h₂, hf', e'⟩ := hc'
  exact hd _ _ _ _ h₁ h₂ hck hck' hf hf' (e.symm.trans (hs.trans e'))

/-- The log accounts for the keys of `updated_sig`, and for what was taken as known. -/
structure Logged (env : Env) (h : Heap) (root : Task) (st : State) : Prop where
  fits : Fits env h root st.heap
  sigs : ∀ s ∈ st.updated_sig, ∃ c ∈ st.log, c.answer = .fresh ∧ c.signature = s
  signs : ∀ c ∈ st.log, c.answer = .fresh → Signs env h root c
  known : Known st

theorem Logged.check (hd : Distinct env h root) {st : State}
    (hl : Logged env h root st) {v w : Value} (hs : v ≠ w → Checked env h root v w) :
    Logged env h root (checkUpdated env v w st).1 := by
  have hgrow : ∀ c : Check, c.answer ≠ .fresh → (c.answer = .already →
        ∃ c' ∈ st.log, c'.answer = .fresh ∧ c'.new_obj = c.new_obj ∧ c'.old_obj = c.old_obj) →
      Logged env h root { st with log := st.log ++ [c] } := by
    intro c hne hknown
    refine ⟨hl.fits, fun s' hs' => ?_, fun c' hc' ha => ?_, fun c' hc' ha => ?_⟩
    · obtain ⟨c', hc', h'⟩ := hl.sigs s' hs'
      exact ⟨c', List.mem_append_left _ hc', h'⟩
    · rcases List.mem_append.mp hc' with hc' | hc'
      · exact hl.signs c' hc' ha
      · cases List.mem_singleton.mp hc'
        exact absurd ha hne
    · have hold : ∃ c₁ ∈ st.log, c₁.answer = .fresh ∧ c₁.new_obj = c'.new_obj ∧
          c₁.old_obj = c'.old_obj := by
        rcases List.mem_append.mp hc' with hc' | hc'
        · exact hl.known c' hc' ha
        · cases List.mem_singleton.mp hc'
          exact hknown ha
      obtain ⟨c₁, hc₁, h₁⟩ := hold
      exact ⟨c₁, List.mem_append_left _ hc₁, h₁⟩
  rcases checkUpdated_cases env v w st with ⟨-, e⟩ | ⟨hne, hin, e⟩ | ⟨hne, -, e⟩ <;> rw [e]
  · exact hgrow _ (by simp) (by simp)
  · refine hgrow _ (by simp) fun _ => ?_
    obtain ⟨c, hc, ha, hcs⟩ := hl.sigs _ hin
    exact ⟨c, hc, ha, hd.eq_of_signature (hl.signs c hc ha) ⟨hs hne, st.heap, hl.fits, rfl⟩ hcs⟩
  · refine ⟨hl.fits, fun s' hs' => ?_, fun c' hc' ha => ?_, fun c' hc' ha => ?_⟩
    · rcases List.mem_cons.mp hs' with rfl | hs'
      · exact ⟨_, List.mem_append_right _ (List.mem_singleton_self _), rfl, rfl⟩
      · obtain ⟨c', hc', h'⟩ := hl.sigs s' hs'
        exact ⟨c', List.mem_append_left _ hc', h'⟩
    · rcases List.mem_append.mp hc' with hc' | hc'
      · exact hl.signs c' hc' ha
      · cases List.mem_singleton.mp hc'
        exact ⟨hs hne, st.heap, hl.fits, rfl⟩
    · rcases List.mem_append.mp hc' with hc' | hc'
      · obtain ⟨c₁, hc₁, h₁⟩ := hl.known c' hc' ha
        exact ⟨c₁, List.mem_append_left _ hc₁, h₁⟩
      · cases List.mem_singleton.mp hc'
        cases ha

/-! ## What has been handled -/

/-- There is nothing to do for the pair, it has been checked, or its children have been
handled. -/
inductive Handled (env : Env) (h : Heap) (st : State) : Value → Value → Prop
  | protected_ {v w} : env.protected_ w = true → Handled env h st v w
  | passed {n w} : env.protected_ (.table n) = true → Handled env h st (.table n) w
  | same {v} : Handled env h st v v
  | checked {c} : c ∈ st.log → c.answer = .fresh → Handled env h st c.new_obj c.old_obj
  | children {n o} : (∀ v w, Child h n o v w → Handled env h st v w) →
      Handled env h st (.table n) (.table o)

/-- What a check that was passed has led to. -/
def Closed (env : Env) (h : Heap) (n₀ o₀ : Nat) (st : State) (c : Check) : Prop :=
  (∀ f g, c.new_obj = .func f → c.old_obj = .func g → g ∈ st.updated_func_map) ∧
  ∀ n o v w, c.new_obj = .table n → c.old_obj = .table o →
    Path env h n₀ o₀ (.table n) (.table o) → env.protected_ (.table n) = false →
    Child h n o v w → Handled env h st v w

/-- Since `st`, checks that were passed have been followed up. -/
structure Advance (env : Env) (h : Heap) (root : Task) (n₀ o₀ : Nat) (st st' : State) :
    Prop where
  logged : Logged env h root st'
  log : ∀ c ∈ st.log, c ∈ st'.log
  map : ∀ g ∈ st.updated_func_map, g ∈ st'.updated_func_map
  closed : ∀ c ∈ st'.log, c.answer = .fresh → c ∈ st.log ∨ Closed env h n₀ o₀ st' c

variable {st st₁ st₂ st' : State}

theorem Handled.grow (hl : ∀ c ∈ st.log, c ∈ st'.log) {v w : Value}
    (hh : Handled env h st v w) : Handled env h st' v w := by
  induction hh with
  | protected_ hp => exact .protected_ hp
  | passed hp => exact .passed hp
  | same => exact .same
  | checked hc ha => exact .checked (hl _ hc) ha
  | children _ ih => exact .children ih

namespace Advance

theorem refl (hl : Logged env h root st) : Advance env h root n₀ o₀ st st :=
  ⟨hl, fun _ => id, fun _ => id, fun _ hc _ => .inl hc⟩

theorem closed_of (ha : Advance env h root n₀ o₀ st st') {c : Check}
    (hc : Closed env h n₀ o₀ st c) : Closed env h n₀ o₀ st' c :=
  ⟨fun f g hf hg => ha.map g (hc.1 f g hf hg), fun n o v w hn ho hp hpn hch =>
    (hc.2 n o v w hn ho hp hpn hch).grow ha.log⟩

theorem trans (h₁ : Advance env h root n₀ o₀ st st₁) (h₂ : Advance env h root n₀ o₀ st₁ st₂) :
    Advance env h root n₀ o₀ st st₂ where
  logged := h₂.logged
  log c hc := h₂.log c (h₁.log c hc)
  map g hg := h₂.map g (h₁.map g hg)
  closed c hc ha := by
    rcases h₂.closed c hc ha with hc | hc
    · exact (h₁.closed c hc ha).imp_right h₂.closed_of
    · exact .inr hc

/-- A write to the heap. -/
theorem write (ha : Advance env h root n₀ o₀ st st') {heap : Heap} (hf : Fits env h root heap) :
    Advance env h root n₀ o₀ st { st' with heap } where
  logged := ⟨hf, ha.logged.sigs, ha.logged.signs, ha.logged.known⟩
  log := ha.log
  map := ha.map
  closed c hc hfr := by
    refine (ha.closed c hc hfr).imp_right fun hcl => ⟨hcl.1, fun n o v w hn ho hp hpn hch => ?_⟩
    refine Handled.grow ?_ (hcl.2 n o v w hn ho hp hpn hch)
    exact fun _ hc => hc

theorem kept (st : State) : Kept env h root (Advance env h root n₀ o₀ st) where
  fits _ ha := ha.logged.fits
  set _ _ _ _ ha hs := ha.write (ha.logged.fits.set hs)
  setCell _ _ _ ha hc := ha.write (ha.logged.fits.setCell hc)

end Advance

/-! ## A run -/

/-- The objects of a call. -/
def Task.new_obj : Task → Value
  | .func f _ => .func f
  | .table n _ _ => .table n

def Task.old_obj : Task → Value
  | .func _ g => .func g
  | .table _ o _ => .table o

variable {rec : Task → State → Result State}

/-- What a call leads to. -/
structure Follows (env : Env) (h : Heap) (root : Task) (n₀ o₀ : Nat) (t : Task)
    (st st' : State) : Prop where
  advance : Advance env h root n₀ o₀ st st'
  handled : Path env h n₀ o₀ t.new_obj t.old_obj → Handled env h st' t.new_obj t.old_obj

/-- What both versions have at a key has been handled, if the key is on a path. -/
def KeyHandled (env : Env) (h : Heap) (n₀ o₀ n o : Nat) (k : Value) (st : State) : Prop :=
  Path env h n₀ o₀ (.table n) (.table o) → env.protected_ (.table n) = false →
    (h.get n k).type = (h.get o k).type →
    ((h.get n k).type = .function ∨ (h.get n k).type = .table) →
    Handled env h st (h.get n k) (h.get o k)

theorem updateField_follows (hi : Intact env h root n₀ o₀) {n o : Nat} {name k : Value}
    (he : env.Compares (.table n o name)) (hl : Logged env h root st)
    (hrec : ∀ t' st', Calls env h root (.table n o name) t' → rec t' st = .ok st' →
      Follows env h root n₀ o₀ t' st st') (hu : updateField rec n o st k = .ok st') :
    KeyHandled env h n₀ o₀ n o k st' := by
  intro hp hpn hty hft
  obtain ⟨hin, hio⟩ := hi n o k hp hty hft
  have hn : st.heap.get n k = h.get n k := (hl.fits.get n k).elim id (hin _)
  have ho : st.heap.get o k = h.get o k := (hl.fits.get o k).elim id (hio _)
  have hne : st.heap.get o k ≠ .nil := by
    rw [ho]
    intro e
    rw [e] at hty
    rcases hft with e' | e' <;> rw [e'] at hty <;> cases hty
  rcases updateField_ok hu with ⟨e, -⟩ | ⟨-, w, hidx, hw⟩
  · rw [hn] at e
    rw [e] at hft
    rcases hft with e' | e' <;> cases e'
  have hholds := hl.fits.holds n k
  obtain ⟨p, hstop, hpw⟩ := hl.fits.index hidx
  rw [Heap.index_of_get hne, ho, Option.some.injEq] at hidx
  rw [hn] at hw hholds
  rw [← hidx] at hw hpw
  rcases hw with ⟨hne, -⟩ | ⟨f, g, ef, eg, hr⟩ | ⟨n', o', en, eo, hr⟩ | ⟨e, hnf, hnt, -⟩
  · exact absurd hty hne
  · rw [ef] at hholds
    rw [eg] at hpw
    rw [ef, eg]
    exact (hrec _ st' (.fieldFunc hholds hstop hpw) hr).handled
      (.child hp hpn he.1 (.func ef eg))
  · rw [en] at hholds
    rw [eo] at hpw
    rw [en, eo]
    exact (hrec _ st' (.fieldTable hholds hstop hpw) hr).handled
      (.child hp hpn he.1 (.table en eo))
  · rw [e] at hft
    exact hft.elim (absurd · hnf) (absurd · hnt)

/-- The loop and the metatables of a table on a path handle its children. -/
theorem updateFields_follows (hi : Intact env h root n₀ o₀) {n o : Nat} {name : Value}
    (hm : May env h root (.meets (.table n o name))) (he : env.Compares (.table n o name))
    (hrec : ∀ t' st st', Calls env h root (.table n o name) t' → Logged env h root st →
      rec t' st = .ok st' → Follows env h root n₀ o₀ t' st st')
    (hl : Logged env h root st) (hu : updateFields env rec n o name st = .ok st') :
    Advance env h root n₀ o₀ st st' ∧
      (Path env h n₀ o₀ (.table n) (.table o) → env.protected_ (.table n) = false →
        ∀ v w, Child h n o v w → Handled env h st' v w) := by
  have hcalls : ∀ st₀ t' st st', Calls env h root (.table n o name) t' →
      Advance env h root n₀ o₀ st₀ st → rec t' st = .ok st' → Advance env h root n₀ o₀ st₀ st' :=
    fun st₀ t' st st' hc ha hr => ha.trans (hrec t' st st' hc ha.logged hr).advance
  obtain ⟨st₁, hloop, hu⟩ := updateFields_ok hu
  obtain ⟨ha₁, hq⟩ := Fuel.foldlM_post (P := Advance env h root n₀ o₀ st)
    (Q := KeyHandled env h n₀ o₀ n o)
    (fun k _ s s' ha hk => by
      have ha' := updateField_keeps (Advance.kept s) hm he (hcalls s) (.refl ha.logged) hk
      exact ⟨ha.trans ha',
        updateField_follows hi he ha.logged (fun t' st' hc hr => hrec t' s st' hc ha.logged hr) hk,
        fun b hb hp hpn hty hft => (hb hp hpn hty hft).grow ha'.log⟩)
    (.refl hl) hloop
  have ha₂ := updateMeta_keeps (Advance.kept st₁) (hcalls st₁) (.refl ha₁.logged) hu
  refine ⟨ha₁.trans ha₂, fun hp hpn => ?_⟩
  have hkey : ∀ k, h.get n k ≠ .nil → (h.get n k).type = (h.get o k).type →
      ((h.get n k).type = .function ∨ (h.get n k).type = .table) →
      Handled env h st' (h.get n k) (h.get o k) := by
    intro k hk hty hft
    have hmem : k ∈ env.order st.heap n :=
      (env.order_perm st.heap n).mem_iff.mpr (Table.mem_keys.mpr (hl.fits.ne_nil hk))
    exact (hq k hmem hp hpn hty hft).grow ha₂.log
  intro v w hch
  cases hch with
  | @func k f g hf hg =>
    have := hkey k (by rw [hf]; simp) (by rw [hf, hg]; rfl) (by rw [hf]; exact .inl rfl)
    rwa [hf, hg] at this
  | @table k n' o' hn ho =>
    have := hkey k (by rw [hn]; simp) (by rw [hn, ho]; rfl) (by rw [hn]; exact .inr rfl)
    rwa [hn, ho] at this
  | @metas n' o' hn ho =>
    rcases updateMeta_ok hu with ⟨hnone, -⟩ | ⟨n₁, o₁, name', hn₁, ho₁, hname, hr⟩
    · rw [ha₁.logged.fits.metatable, ha₁.logged.fits.metatable, hn, ho] at hnone
      rcases hnone with e | e <;> cases e
    · rw [ha₁.logged.fits.metatable] at hn₁ ho₁
      cases hn.symm.trans hn₁
      cases ho.symm.trans ho₁
      exact (hrec _ st₁ st' (.metas hn ho hname) ha₁.logged hr).handled
        (.child hp hpn he.1 (.metas hn ho))

/-- A check with nothing to update: the pair has been handled. -/
theorem check_follows (hd : Distinct env h root) (hl : Logged env h root st)
    {v w : Value} (hs : v ≠ w → Checked env h root v w)
    (hc : checkUpdated env v w st = (st₁, true)) :
    Advance env h root n₀ o₀ st st₁ ∧ Handled env h st₁ v w := by
  have hl₁ := hl.check hd hs
  rcases checkUpdated_cases env v w st with ⟨hvw, e⟩ | ⟨-, -, e⟩ | ⟨-, -, e⟩ <;>
    rw [hc] at hl₁ e <;> cases e
  · refine ⟨⟨hl₁, fun c hc => List.mem_append_left _ hc, fun _ => id, fun c hc ha => ?_⟩,
      hvw ▸ .same⟩
    rcases List.mem_append.mp hc with hc | hc
    · exact .inl hc
    · cases List.mem_singleton.mp hc
      cases ha
  · refine ⟨⟨hl₁, fun c hc => List.mem_append_left _ hc, fun _ => id, fun c hc ha => ?_⟩, ?_⟩
    · rcases List.mem_append.mp hc with hc | hc
      · exact .inl hc
      · cases List.mem_singleton.mp hc
        cases ha
    · obtain ⟨c, hc, ha, hv, hw⟩ :=
        hl₁.known _ (List.mem_append_right _ (List.mem_singleton_self _)) rfl
      have := @Handled.checked env h _ _ hc ha
      rwa [hv, hw] at this

/-- A check that is passed is in the log. -/
theorem check_fresh (hd : Distinct env h root) (hl : Logged env h root st)
    {v w : Value} (hs : v ≠ w → Checked env h root v w)
    (hc : checkUpdated env v w st = (st₁, false)) :
    v ≠ w ∧ Logged env h root st₁ ∧ st₁.updated_func_map = st.updated_func_map ∧
      st₁.log = st.log ++ [⟨v, w, env.signature st.heap v w, .fresh⟩] := by
  have hl₁ := hl.check hd hs
  rcases checkUpdated_cases env v w st with ⟨-, e⟩ | ⟨-, -, e⟩ | ⟨hne, -, e⟩ <;>
    rw [hc] at hl₁ e <;> cases e
  exact ⟨hne, hl₁, rfl, rfl⟩

/-- The body of a call that has passed its check `c`, if `c` is closed in the end. -/
theorem Advance.of_fresh {c : Check} (hlog : st₁.log = st.log ++ [c])
    (hmap : ∀ g ∈ st.updated_func_map, g ∈ st₁.updated_func_map)
    (ha : Advance env h root n₀ o₀ st₁ st') (hc : Closed env h n₀ o₀ st' c) :
    Advance env h root n₀ o₀ st st' where
  logged := ha.logged
  log c' hc' := ha.log c' (by rw [hlog]; exact List.mem_append_left _ hc')
  map g hg := ha.map g (hmap g hg)
  closed c' hc' hfr := by
    rcases ha.closed c' hc' hfr with hc' | hc'
    · rw [hlog] at hc'
      rcases List.mem_append.mp hc' with hc' | hc'
      · exact .inl hc'
      · cases List.mem_singleton.mp hc'
        exact .inr hc
    · exact .inr hc'

theorem run_follows (hi : Intact env h root n₀ o₀) (hd : Distinct env h root) :
    ∀ fuel t st st', May env h root (.meets t) ∧ Logged env h root st →
      Fuel.run (body env) fuel t st = .ok st' → Follows env h root n₀ o₀ t st st' := by
  refine Fuel.run_post (P := fun t st => May env h root (.meets t) ∧ Logged env h root st)
    (Q := Follows env h root n₀ o₀) fun rec hrec t st st' ⟨hm, hl⟩ hu => ?_
  have hcalls : env.Compares t → ∀ t' st st', Calls env h root t t' → Logged env h root st →
      rec t' st = .ok st' → Follows env h root n₀ o₀ t' st st' :=
    fun he t' st st' hc hl hr => hrec t' st st' ⟨hc.meets hm he, hl⟩ hr
  cases t with
  | func f g =>
    rcases updateFunc_ok hu with ⟨hp, rfl⟩ | ⟨hp, hu⟩
    · exact ⟨.refl hl, fun _ => .protected_ hp⟩
    have hs : (.func f : Value) ≠ .func g → Checked env h root (.func f) (.func g) :=
      fun hne => .func hm hp fun e => hne (e ▸ rfl)
    obtain ⟨st₁, ⟨e, rfl⟩ | ⟨e, hloop⟩⟩ := hu
    · obtain ⟨ha, hh⟩ := check_follows hd hl hs e
      exact ⟨ha, fun _ => hh⟩
    · obtain ⟨hne, hl₁, hmap, hlog⟩ := check_fresh hd hl hs e
      have he : env.Compares (.func f g) := ⟨hp, fun e => hne (e ▸ rfl)⟩
      rw [hl₁.fits.closure] at hloop
      have hl₂ : Logged env h root (st₁.record g f) := ⟨hl₁.fits, hl₁.sigs, hl₁.signs, hl₁.known⟩
      have ha : Advance env h root n₀ o₀ (st₁.record g f) st' :=
        (Fuel.foldlM_post (Q := fun _ _ => True) (fun u hu s s' ha hk =>
          ⟨updateUpvalue_keeps (Advance.kept _) hm he
            (fun t' s s' hc ha hr => ha.trans (hcalls he t' s s' hc ha.logged hr).advance)
            hl₁.fits.mayCell hu ha hk, trivial, fun _ => id⟩) (.refl hl₂) hloop).1
      have hg : g ∈ st'.updated_func_map := ha.map g (AList.mem_insert _ |>.mpr (.inl rfl))
      have hlog₂ : (st₁.record g f).log = st.log ++
          [⟨.func f, .func g, env.signature st.heap (.func f) (.func g), .fresh⟩] := hlog
      refine ⟨.of_fresh hlog₂ (fun g' hg' => AList.mem_insert _ |>.mpr (.inr (hmap ▸ hg'))) ha
        ⟨?_, ?_⟩, fun _ => ?_⟩
      · rintro _ _ ⟨⟩ ⟨⟩
        exact hg
      · rintro _ _ _ _ ⟨⟩
      · exact .checked (c := ⟨.func f, .func g, env.signature st.heap (.func f) (.func g), .fresh⟩)
          (ha.log _ (by rw [hlog₂]; simp)) rfl
  | table n o name =>
    rcases updateTable_ok hu with ⟨hp, rfl⟩ | ⟨hp, hu⟩
    · exact ⟨.refl hl, fun _ => .protected_ hp⟩
    rcases hu with ⟨hfind, hu⟩ | ⟨hfind, st₁, hu⟩
    · have he : env.Compares (.table n o name) := ⟨hp, .inl hfind⟩
      obtain ⟨ha, hh⟩ := updateFields_follows hi hm he (hcalls he) hl hu
      refine ⟨ha, fun hpath => ?_⟩
      by_cases hpn : env.protected_ (.table n) = true
      · exact .passed hpn
      · exact .children (hh hpath (by simpa using hpn))
    have hs : (.table n : Value) ≠ .table o → Checked env h root (.table n) (.table o) :=
      fun hne => .table hm hp hfind fun e => hne (e ▸ rfl)
    rcases hu with ⟨e, rfl⟩ | ⟨e, hu⟩
    · obtain ⟨ha, hh⟩ := check_follows hd hl hs e
      exact ⟨ha, fun _ => hh⟩
    · obtain ⟨hne, hl₁, hmap, hlog⟩ := check_fresh hd hl hs e
      have he : env.Compares (.table n o name) := ⟨hp, .inr fun e => hne (e ▸ rfl)⟩
      obtain ⟨ha, hh⟩ := updateFields_follows hi hm he (hcalls he) hl₁ hu
      refine ⟨.of_fresh hlog (fun g hg => hmap ▸ hg) ha ⟨?_, ?_⟩, fun _ => ?_⟩
      · rintro _ _ ⟨⟩
      · rintro _ _ v w ⟨⟩ ⟨⟩ hpath hpn hch
        exact hh hpath hpn v w hch
      · exact .checked (c := ⟨.table n, .table o, env.signature st.heap (.table n) (.table o),
          .fresh⟩) (ha.log _ (by rw [hlog]; simp)) rfl

/-! ## Paths -/

theorem Child.eq_of_same {n : Nat} {v w : Value} (hc : Child h n n v w) : v = w := by
  cases hc with
  | func hf hg => rw [← hf, ← hg]
  | table hn ho => rw [← hn, ← ho]
  | metas hn ho => cases hn.symm.trans ho; rfl

theorem Path.handled {v w : Value} (hp : Path env h n₀ o₀ v w)
    (hroot : Handled env h st (.table n₀) (.table o₀))
    (hclosed : ∀ c ∈ st.log, c.answer = .fresh → Closed env h n₀ o₀ st c) :
    Handled env h st v w := by
  induction hp with
  | module => exact hroot
  | @child n o v w hp hpn hpo hch ih =>
    generalize hv : Value.table n = v₁ at ih
    generalize hw : Value.table o = w₁ at ih
    cases ih with
    | protected_ hpr =>
      rw [← hw, hpo] at hpr
      cases hpr
    | passed hpr =>
      rw [← hv, hpn] at hpr
      cases hpr
    | same =>
      cases hv.trans hw.symm
      exact hch.eq_of_same ▸ .same
    | checked hc ha => exact (hclosed _ hc ha).2 n o v w hv.symm hw.symm hp hpn hch
    | children hh =>
      cases hv
      cases hw
      exact hh v w hch

/-- A run covers every path, and takes no pair of tables for another. -/
theorem run_covers {name : Value} (hi : Intact env h (.table n₀ o₀ name) n₀ o₀)
    (hd : Distinct env h (.table n₀ o₀ name)) {fuel : Nat} {st : State}
    (hu : Fuel.run (body env) fuel (.table n₀ o₀ name) (State.start h) = .ok st) :
    Covers env h n₀ o₀ st ∧ Known st := by
  have hl : Logged env h (.table n₀ o₀ name) (State.start h) :=
    ⟨.refl _ h _, by simp [State.start], by simp [State.start], by simp [Known, State.start]⟩
  have hfollows := run_follows hi hd fuel _ _ st ⟨.root, hl⟩ hu
  have hclosed : ∀ c ∈ st.log, c.answer = .fresh → Closed env h n₀ o₀ st c := by
    intro c hc ha
    refine (hfollows.advance.closed c hc ha).resolve_left ?_
    simp [State.start]
  refine ⟨fun f g hp hne hpg => ?_, hfollows.advance.logged.known⟩
  have hh := hp.handled (hfollows.handled .module) hclosed
  generalize hv : Value.func f = v at hh
  generalize hw : Value.func g = w at hh
  cases hh with
  | protected_ hpr =>
    rw [← hw, hpg] at hpr
    cases hpr
  | passed => cases hv
  | same =>
    cases hv.trans hw.symm
    exact absurd rfl hne
  | checked hc ha => exact (hclosed _ hc ha).1 f g hv.symm hw.symm
  | children => cases hv

theorem oneUpvalue_checked {v w : Value}
    (hc : Checked env (oneUpvalue (.num 5) (.num 1)) (.table 2 1 (.str "m")) v w) :
    (v = .table 2 ∧ w = .table 1) ∨ (v = .func 2 ∧ w = .func 1) := by
  rcases hc with ⟨hm, -, -⟩ | ⟨hm, -, -, -⟩
  · rcases oneUpvalue_may hm with e | e <;> cases e
    exact .inr ⟨rfl, rfl⟩
  · rcases oneUpvalue_may hm with e | e <;> cases e
    exact .inl ⟨rfl, rfl⟩

end SkynetHotfix.RawUpdater
