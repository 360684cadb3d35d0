import SkynetHotfix.Lib.Meetings
import SkynetHotfix.Lib.Settles
import SkynetHotfix.Lua.Graph
import SkynetHotfix.Luaext.Copy

/-!
# What a clone is

`deepCopy` builds the copy of a graph with cycles: a table is in
`lookup_table` before its fields are copied, so that what refers back to it
finds a table that is still being filled.

* `Sound`: the tables there were are as they were, and those of
  `lookup_table` are new ones;
* `Done`: the fields of a copy are the images of those of its table, and it
  has the metatable;
* `Filling`: the same of the table that a loop fills, for the keys it has met;
* `deepCopy_settles`: every call returns with all that it has made `Done`, or
  meets a table that cannot be copied (`Plain`) and raises.
-/

namespace SkynetHotfix.Luaext

open Lua Fuel Meetings

/-- The metatable, as a value. -/
def metaValue (h : Heap) (t : Nat) : Value := ((h.metatable t).map Value.table).getD .nil

/-- `setmetatable` takes what `getmetatable` gives. -/
def Settable (h : Heap) (t : Nat) : Prop :=
  h.getmetatable t = .nil ∨ (h.getmetatable t).table?.isSome

/-- A table whose metatable is no matter for a copy: `pairs` goes through its fields, and the copy
can have the metatable. -/
structure Plain (h : Heap) (t : Nat) : Prop where
  pairs : h.metafield t "__pairs" = .nil
  settable : Settable h t

section

variable {order : Heap → Nat → List Value} {h₀ : Heap} {object : Value} {st₀ st st' st'' : Copying}
  {t new_table : Nat} {met : List Value}

/-- The tables there were are as they were, and those of `lookup_table` are new. -/
structure Sound (h₀ : Heap) (st : Copying) : Prop where
  size : h₀.size ≤ st.heap.size
  orig : ∀ t < h₀.size, st.heap.table t = h₀.table t
  fresh : ∀ e ∈ st.lookup_table, h₀.size ≤ e.2 ∧ e.2 < st.heap.size
  matched : Matched st.lookup_table

/-- What a call leaves: it makes tables and matches them, and changes none. -/
structure Grown (st st' : Copying) : Prop where
  size : st.heap.size ≤ st'.heap.size
  lookup_table : ∀ e ∈ st.lookup_table, e ∈ st'.lookup_table
  table : ∀ t < st.heap.size, st'.heap.table t = st.heap.table t

theorem Grown.refl (st : Copying) : Grown st st := ⟨Nat.le_refl _, fun _ => id, fun _ _ => rfl⟩

theorem Grown.trans (h : Grown st st') (h' : Grown st' st'') : Grown st st'' where
  size := h.size.trans h'.size
  lookup_table e he := h'.lookup_table e (h.lookup_table e he)
  table t ht := (h'.table t (Nat.lt_of_lt_of_le ht h.size)).trans (h.table t ht)

/-- `t'` is a copy of `t`. -/
structure Done (h₀ : Heap) (st : Copying) (t t' : Nat) : Prop where
  meta_ : h₀.getmetatable t = metaValue st.heap t'
  field : ∀ k, h₀.get t k ≠ .nil → ∃ k', Image st.lookup_table k k' ∧
    Image st.lookup_table (h₀.get t k) (st.heap.get t' k')
  only : ∀ k', st.heap.get t' k' ≠ .nil → ∃ k, Image st.lookup_table k k' ∧ h₀.get t k ≠ .nil

/-- A copy stays one where its table is left alone. -/
theorem Done.mono {t' : Nat} (hd : Done h₀ st t t')
    (hl : ∀ e ∈ st.lookup_table, e ∈ st'.lookup_table)
    (ht : st'.heap.table t' = st.heap.table t') : Done h₀ st' t t' where
  meta_ := by
    rw [metaValue, Heap.metatable_congr ht]
    exact hd.meta_
  field k hk := by
    obtain ⟨k', hk', hv⟩ := hd.field k hk
    refine ⟨k', hk'.mono hl, ?_⟩
    rw [Heap.get_congr ht]
    exact hv.mono hl
  only k' hk' := by
    rw [Heap.get_congr ht] at hk'
    obtain ⟨k, hk, hn⟩ := hd.only k' hk'
    exact ⟨k, hk.mono hl, hn⟩

/-- What a call of `_copy` on `v` leaves. -/
structure Copied (h₀ : Heap) (st : Copying) (v : Value) (r : Value × Copying) : Prop where
  sound : Sound h₀ r.2
  grown : Grown st r.2
  image : Image r.2.lookup_table v r.1
  done : ∀ e ∈ r.2.lookup_table, e ∈ st.lookup_table ∨ Done h₀ r.2 e.1 e.2

/-- The loop that fills `new_table` from `t`, having met the keys `met`; `st₀` is the state that the
copy of `t` began in. -/
structure Filling (h₀ : Heap) (st₀ : Copying) (t new_table : Nat) (met : List Value)
    (st : Copying) : Prop where
  sound : Sound h₀ st
  grown : Grown st₀ st
  known : (t, new_table) ∈ st.lookup_table
  beyond : st₀.heap.size ≤ new_table
  bare : st.heap.metatable new_table = none
  others : ∀ e ∈ st.lookup_table, e ∈ st₀.lookup_table ∨ e = (t, new_table) ∨ Done h₀ st e.1 e.2
  field : ∀ k ∈ met, ∃ k', Image st.lookup_table k k' ∧
    Image st.lookup_table (h₀.get t k) (st.heap.get new_table k')
  only : ∀ k', st.heap.get new_table k' ≠ .nil → ∃ k ∈ met, Image st.lookup_table k k'

/-- The loop begins with an empty table. -/
theorem Filling.start (hs : Sound h₀ st) (ht : t ∉ st.lookup_table.map Prod.fst) :
    Filling h₀ st t st.heap.size []
      ⟨st.heap.newTable.2, (t, st.heap.size) :: st.lookup_table⟩ where
  sound :=
    { size := hs.size.trans (Nat.le_succ _)
      orig := fun u hu => by
        show st.heap.newTable.2.table u = _
        rw [Heap.table_newTable_ne _ (Nat.ne_of_lt (Nat.lt_of_lt_of_le hu hs.size))]
        exact hs.orig u hu
      fresh := fun e he => by
        rcases List.mem_cons.mp he with rfl | he
        · exact ⟨hs.size, Nat.lt_succ_self _⟩
        · exact ⟨(hs.fresh e he).1, Nat.lt_succ_of_lt (hs.fresh e he).2⟩
      matched := hs.matched.cons (fun e he e' => ht (e' ▸ List.mem_map_of_mem he))
        fun e he => Nat.ne_of_lt (hs.fresh e he).2 }
  grown := ⟨Nat.le_succ _, fun e he => List.mem_cons_of_mem _ he,
    fun u hu => Heap.table_newTable_ne _ (Nat.ne_of_lt hu)⟩
  known := List.mem_cons_self
  beyond := Nat.le_refl _
  bare := Heap.metatable_newTable _
  others e he := (List.mem_cons.mp he).elim (fun h => .inr (.inl h)) .inl
  field k hk := by simp at hk
  only k' hk' := absurd (Heap.get_newTable st.heap k') hk'

/-- A call leaves the table that is filled as it is. -/
theorem Filling.call {v : Value} {r : Value × Copying}
    (hf : Filling h₀ st₀ t new_table met st) (hr : Copied h₀ st v r) :
    Filling h₀ st₀ t new_table met r.2 := by
  have hlt := (hf.sound.fresh _ hf.known).2
  have htable := hr.grown.table new_table hlt
  have hl := hr.grown.lookup_table
  refine ⟨hr.sound, hf.grown.trans hr.grown, hl _ hf.known, hf.beyond, ?_, fun e he => ?_,
    fun k hk => ?_, fun k' hk' => ?_⟩
  · rw [Heap.metatable_congr htable]
    exact hf.bare
  · rcases hr.done e he with he | hd
    · rcases hf.others e he with h | h | hd
      · exact .inl h
      · exact .inr (.inl h)
      · exact .inr (.inr (hd.mono hl (hr.grown.table _ (hf.sound.fresh e he).2)))
    · exact .inr (.inr hd)
  · obtain ⟨k', hk', hv⟩ := hf.field k hk
    refine ⟨k', hk'.mono hl, ?_⟩
    rw [Heap.get_congr htable]
    exact hv.mono hl
  · rw [Heap.get_congr htable] at hk'
    obtain ⟨k, hk, hi⟩ := hf.only k' hk'
    exact ⟨k, hk, hi.mono hl⟩

/-- Where the table that is filled has got a field, or its metatable, all else is as it was. -/
theorem Filling.write (hf : Filling h₀ st₀ t new_table met st) (h' : Heap)
    (hsize : h'.size = st.heap.size)
    (htable : ∀ u ≠ new_table, h'.table u = st.heap.table u) :
    Sound h₀ { st with heap := h' } ∧ Grown st₀ { st with heap := h' } ∧
      ∀ e ∈ st.lookup_table, e ∈ st₀.lookup_table ∨ e = (t, new_table) ∨
        Done h₀ { st with heap := h' } e.1 e.2 := by
  have hnew := (hf.sound.fresh _ hf.known).1
  have hbeyond := hf.beyond
  refine ⟨⟨?_, fun u hu => ?_, fun e he => ?_, hf.sound.matched⟩,
    ⟨?_, hf.grown.lookup_table, fun u hu => ?_⟩, fun e he => ?_⟩
  · rw [hsize]
    exact hf.sound.size
  · rw [htable u (by omega)]
    exact hf.sound.orig u hu
  · rw [hsize]
    exact hf.sound.fresh e he
  · rw [hsize]
    exact hf.grown.size
  · rw [htable u (by omega)]
    exact hf.grown.table u hu
  · rcases hf.others e he with h | h | hd
    · exact .inl h
    · exact .inr (.inl h)
    · by_cases hn : e.2 = new_table
      · -- the pair of the table that is filled
        exact .inr (.inl (Prod.ext ((hf.sound.matched e he _ hf.known).mpr hn) hn))
      · exact .inr (.inr (hd.mono (fun _ => id) (htable _ hn)))

/-- A field is put with its key and its value. -/
theorem Filling.put {k k' v' : Value} (hf : Filling h₀ st₀ t new_table met st) (hk : k ∉ met)
    (hk' : Image st.lookup_table k k') (hv : Image st.lookup_table (h₀.get t k) v') :
    Filling h₀ st₀ t new_table (met ++ [k])
      { st with heap := st.heap.set new_table k' v' } := by
  obtain ⟨hsound, hgrown, hothers⟩ := hf.write (st.heap.set new_table k' v') rfl
    fun u hu => Heap.table_set_ne _ hu _ _
  refine ⟨hsound, hgrown, hf.known, hf.beyond, ?_, hothers, fun j hj => ?_, fun j' hj' => ?_⟩
  · rw [Heap.metatable_set]
    exact hf.bare
  · rcases List.mem_append.mp hj with hj | hj
    · obtain ⟨j', hj', hw⟩ := hf.field j hj
      refine ⟨j', hj', ?_⟩
      rw [Heap.get_set, if_neg]
      · exact hw
      · rintro ⟨-, rfl⟩
        exact hk (hk'.inj hf.sound.matched hj' ▸ hj)
    · rw [List.mem_singleton.mp hj]
      refine ⟨k', hk', ?_⟩
      rw [Heap.get_set, if_pos ⟨rfl, rfl⟩]
      exact hv
  · rw [Heap.get_set] at hj'
    split at hj'
    · rename_i h
      exact ⟨k, by simp, h.2 ▸ hk'⟩
    · obtain ⟨j, hj, hi⟩ := hf.only j' hj'
      exact ⟨j, List.mem_append_left _ hj, hi⟩

/-- There is a table that cannot be copied. -/
def Refused (h₀ : Heap) (object : Value) : Prop := ∃ t, Reaches h₀ object t ∧ ¬Plain h₀ t

theorem orRaise_settles {α : Type} {P : α → Prop} {R : Prop} {x : Option α} (n : Nat)
    (hn : x = none → R) (hs : ∀ a, x = some a → P a) : Settles P R (fun _ => orRaise x) n := by
  cases x with
  | none => exact .raise () (hn rfl)
  | some a => exact .ok (hs a rfl)

/-- How many tables are not in `lookup_table`. -/
def uncopied (h₀ : Heap) (st : Copying) : Nat := new (List.range h₀.size) st.lookup_table

theorem Grown.uncopied_le (h₀ : Heap) (h : Grown st st') : uncopied h₀ st' ≤ uncopied h₀ st :=
  new_mono _ h.lookup_table

/-- The table that is filled is no longer among those that are left. -/
theorem Filling.uncopied_lt (hf : Filling h₀ st₀ t new_table met st) (hlt : t < h₀.size)
    (hnew : t ∉ st₀.lookup_table.map Prod.fst) : uncopied h₀ st < uncopied h₀ st₀ := by
  refine Nat.lt_of_le_of_lt (new_mono _ fun e he => ?_)
    (new_lt new_table (List.mem_range.mpr hlt) hnew)
  rcases List.mem_cons.mp he with rfl | he
  · exact hf.known
  · exact hf.grown.lookup_table e he

/-- The calls of `copy` end, from the fuel `n` on, where fewer than `n` tables are left. -/
def Ends (h₀ : Heap) (object : Value) (copy : Nat → Value → Copying → Result (Value × Copying))
    (n : Nat) : Prop :=
  ∀ v st, Sound h₀ st → (∀ t, v = .table t → Reaches h₀ object t) → uncopied h₀ st < n →
    Settles (Copied h₀ st v) (Refused h₀ object) (fun m => copy m v st) n

variable {copy : Nat → Value → Copying → Result (Value × Copying)} {n : Nat}

/-- A turn of the loop puts the field of its key. -/
theorem Filling.turn (hcopy : Ends h₀ object copy n) (ht : Reaches h₀ object t)
    (hlt : t < h₀.size) {k : Value} (hk : k ∉ met) (hv : h₀.get t k ≠ .nil)
    (hf : Filling h₀ st₀ t new_table met st) (hleft : uncopied h₀ st < n) :
    Settles (Filling h₀ st₀ t new_table (met ++ [k])) (Refused h₀ object)
      (fun m => copyField (copy m) t new_table st k) n := by
  have hget : st.heap.get t k = h₀.get t k := Heap.get_congr (hf.sound.orig t hlt) k
  simp only [copyField, hget, if_neg hv]
  -- the key
  refine (hcopy k st hf.sound (fun u hu => .key ht (hu ▸ hv)) hleft).bind fun r₁ h₁ => ?_
  have hleft₁ := h₁.grown.uncopied_le h₀
  -- the value
  refine (hcopy (h₀.get t k) r₁.2 h₁.sound (fun u hu => .value ht hu) (by omega)).bind
    fun r₂ h₂ => ?_
  have hf₂ := (hf.call h₁).call h₂
  refine Settles.bind (P := fun h => h = r₂.2.heap.set new_table r₁.1 r₂.1)
    (orRaise_settles n ?_ ?_) ?_
  · rw [Heap.newindex_of_none hf₂.bare]
    exact fun h => absurd h (Option.some_ne_none _)
  · rw [Heap.newindex_of_none hf₂.bare]
    exact fun h e => (Option.some.inj e).symm
  · rintro _ rfl
    exact .ok (hf₂.put hk (h₁.image.mono h₂.grown.lookup_table) h₂.image)

theorem settable_cases {h : Heap} (hv : Settable h t) :
    ((h.getmetatable t).table?.map Value.table).getD .nil = h.getmetatable t := by
  cases e : h.getmetatable t with
  | nil => rfl
  | table m => rfl
  | _ => simp [Settable, e, Value.table?] at hv

/-- With all keys met and the metatable set the copy is done. -/
theorem Filling.finish (hf : Filling h₀ st t new_table met st') (hv : Settable h₀ t)
    (hmet : ∀ k, k ∈ met ↔ h₀.get t k ≠ .nil) :
    Copied h₀ st (.table t) (.table new_table,
      { st' with heap := st'.heap.setMeta new_table (h₀.getmetatable t).table? }) := by
  obtain ⟨hsound, hgrown, hothers⟩ := hf.write
    (st'.heap.setMeta new_table (h₀.getmetatable t).table?) rfl
    fun u hu => Heap.table_setMeta_ne _ hu _
  refine ⟨hsound, hgrown, ⟨new_table, hf.known, rfl⟩, fun e he => ?_⟩
  rcases hothers e he with h | rfl | hd
  · exact .inl h
  · refine .inr ⟨?_, fun k hk => ?_, fun k' hk' => ?_⟩
    · rw [metaValue, Heap.metatable_setMeta, if_pos rfl, settable_cases hv]
    · obtain ⟨k', hi, hw⟩ := hf.field k ((hmet k).mpr hk)
      exact ⟨k', hi, (Heap.get_setMeta _ _ _ _ _).symm ▸ hw⟩
    · rw [Heap.get_setMeta] at hk'
      obtain ⟨k, hk, hi⟩ := hf.only k' hk'
      exact ⟨k, hi, (hmet k).mp hk⟩
  · exact .inr hd

/-- A table that is not in `lookup_table` is copied. -/
theorem copyNew_settles (horder : ∀ h t, (order h t).Perm (h.table t).keys) (hc : h₀.Closed)
    (hcopy : Ends h₀ object copy n) (ht : Reaches h₀ object t) (hlt : t < h₀.size)
    (hs : Sound h₀ st) (hnew : t ∉ st.lookup_table.map Prod.fst) (hleft : uncopied h₀ st < n + 1) :
    Settles (Copied h₀ st (.table t)) (Refused h₀ object)
      (fun m => copyNew order (copy m) t false st) n := by
  have hstart := Filling.start hs hnew
  have horig := hstart.sound.orig
  have hmeta : ∀ st', Sound h₀ st' → ∀ m, h₀.metatable t = some m →
      st'.heap.table m = h₀.table m := fun st' hs' m hm => hs'.orig m (hc.metatable t m hlt hm)
  simp only [copyNew]
  -- the keys of the table
  refine Settles.bind (P := fun keys => keys.Perm (h₀.table t).keys) (orRaise_settles n ?_ ?_) ?_
  · intro h
    refine ⟨t, ht, fun hp => ?_⟩
    have hpairs := hp.pairs
    rw [← Heap.metafield_congr (horig t hlt) (hmeta _ hstart.sound)] at hpairs
    exact absurd h (by rw [Heap.pairs, if_pos hpairs]; exact Option.some_ne_none _)
  · intro keys h
    have hperm := horder st.heap.newTable.2 t
    rw [Heap.pairs] at h
    split at h
    · cases h
      rwa [horig t hlt] at hperm
    · cases h
  intro keys hkeys
  -- the loop
  have hnodup : keys.Nodup := hkeys.nodup_iff.mpr (h₀.table t).fields.keys_nodup
  refine Settles.bind (P := Filling h₀ st t st.heap.size keys) ?_ ?_
  · refine Settles.foldlM_met (P := Filling h₀ st t st.heap.size) ?_ hstart
    rintro met k l st' rfl hf
    have hk : k ∉ met := fun hm =>
      (List.nodup_append.mp hnodup).2.2 k hm k List.mem_cons_self rfl
    have hv : h₀.get t k ≠ .nil := Table.mem_keys.mp (hkeys.mem_iff.mp (by simp))
    have hlt' := hf.uncopied_lt hlt hnew
    exact hf.turn hcopy ht hlt hk hv (by omega)
  intro st' hf
  simp only [Bool.false_eq_true, if_false]
  -- the metatable
  have hget : st'.heap.getmetatable t = h₀.getmetatable t :=
    Heap.getmetatable_congr (hf.sound.orig t hlt) (hmeta _ hf.sound)
  have hset := Heap.setmetatable_of_none hf.bare (h₀.getmetatable t)
  refine Settles.bind (P := fun h => Settable h₀ t ∧
    h = st'.heap.setMeta st.heap.size (h₀.getmetatable t).table?) (orRaise_settles n ?_ ?_) ?_
  · intro h
    refine ⟨t, ht, fun hp => ?_⟩
    rw [hget, show st.heap.newTable.1 = st.heap.size from rfl, hset] at h
    split at h
    · cases h
    · rename_i hn
      exact hn hp.settable
  · intro h e
    rw [hget, show st.heap.newTable.1 = st.heap.size from rfl, hset] at e
    split at e
    · rename_i hv
      exact ⟨hv, (Option.some.inj e).symm⟩
    · cases e
  · rintro _ ⟨hv, rfl⟩
    exact .ok (hf.finish hv fun k => hkeys.mem_iff.trans Table.mem_keys)

/-- `_copy` ends, if it has the fuel for the tables that are left. -/
theorem deepCopy_settles (horder : ∀ h t, (order h t).Perm (h.table t).keys) (hc : h₀.Closed)
    (hfin : ∀ t, Reaches h₀ object t → t < h₀.size) :
    ∀ n, Ends h₀ object (fun m v st => deepCopy order m v false st) n := by
  intro n
  induction n with
  | zero => intro v st _ _ hleft; omega
  | succ n ih =>
    intro v st hs hv hleft
    refine Settles.succ ?_
    by_cases ht : ∃ t, v = .table t
    · obtain ⟨t, rfl⟩ := ht
      simp only [deepCopy]
      cases hl : st.lookup_table.lookup t with
      | some new_table =>
        exact .ok ⟨hs, .refl st, ⟨new_table, mem_of_lookup hl, rfl⟩, fun e he => .inl he⟩
      | none =>
        exact copyNew_settles horder hc ih (hv t rfl) (hfin t (hv t rfl)) hs (new_of_lookup hl) hleft
    · have ht : ∀ t, v ≠ .table t := fun t e => ht ⟨t, e⟩
      have hcopy : ∀ m, deepCopy order (m + 1) v false st = .ok (v, st) := by
        intro m
        cases v with
        | table t => exact absurd rfl (ht t)
        | _ => rfl
      simp only [hcopy]
      exact .ok ⟨hs, .refl st, image_of_not_table ht, fun e he => .inl he⟩

/-! ## The whole graph -/

theorem sound_init (h : Heap) : Sound h ⟨h, []⟩ where
  size := Nat.le_refl _
  orig _ _ := rfl
  fresh e he := by simp at he
  matched e he := by simp at he

/-- The call of `_copy` on the whole. -/
theorem deepCopy_whole (horder : ∀ h t, (order h t).Perm (h.table t).keys) {h : Heap}
    (hc : h.Closed) (object : Value) (hobj : ∀ t, object = .table t → t < h.size) :
    Settles (Copied h ⟨h, []⟩ object) (Refused h object)
      (fun fuel => deepCopy order fuel object false ⟨h, []⟩) (h.size + 1) := by
  refine deepCopy_settles horder hc (fun t ht => ht.lt hc hobj) (h.size + 1) object ⟨h, []⟩
    (sound_init h) (fun t ht => .root ht) ?_
  have hle := new_le (List.range h.size) ([] : List (Nat × Nat))
  rw [List.length_range] at hle
  exact Nat.lt_succ_of_le hle

section

variable {h : Heap} {r : Value × Copying}

/-- All that was matched is done. -/
theorem Copied.all (hr : Copied h ⟨h, []⟩ object r) {t t' : Nat}
    (ht : (t, t') ∈ r.2.lookup_table) : Done h r.2 t t' :=
  (hr.done _ ht).resolve_left (by simp)

/-- Each table that is reached has a copy. -/
theorem Copied.exists_copy (hr : Copied h ⟨h, []⟩ object r) {t : Nat} (ht : Reaches h object t) :
    ∃ t', (t, t') ∈ r.2.lookup_table := by
  induction ht with
  | root hv =>
    subst hv
    obtain ⟨t', ht', -⟩ := hr.image
    exact ⟨t', ht'⟩
  | key _ hk ih =>
    obtain ⟨t', ht'⟩ := ih
    obtain ⟨k', ⟨u', hu', -⟩, -⟩ := (hr.all ht').field _ hk
    exact ⟨u', hu'⟩
  | value _ hk ih =>
    obtain ⟨t', ht'⟩ := ih
    obtain ⟨k', -, hv⟩ := (hr.all ht').field _ (by rw [hk]; exact Value.noConfusion)
    rw [hk] at hv
    obtain ⟨u', hu', -⟩ := hv
    exact ⟨u', hu'⟩

/-- What the copy reaches are the copies of what the original reaches. -/
theorem Copied.back (hr : Copied h ⟨h, []⟩ object r) {t' : Nat}
    (ht : Reaches r.2.heap r.1 t') : ∃ t, Reaches h object t ∧ (t, t') ∈ r.2.lookup_table := by
  induction ht with
  | root hv =>
    obtain ⟨t, ht, hm⟩ := (hv ▸ hr.image).table
    exact ⟨t, .root ht, hm⟩
  | key _ hk ih =>
    obtain ⟨t, ht, hm⟩ := ih
    obtain ⟨k, hi, hn⟩ := (hr.all hm).only _ hk
    obtain ⟨u, rfl, hu⟩ := hi.table
    exact ⟨u, .key ht hn, hu⟩
  | @value t' u' k' _ hk ih =>
    obtain ⟨t, ht, hm⟩ := ih
    obtain ⟨k, hi, hn⟩ := (hr.all hm).only k' (by rw [hk]; exact Value.noConfusion)
    obtain ⟨j, hj, hv⟩ := (hr.all hm).field k hn
    have e : j = k' := (hj.eq_rename hr.sound.matched).trans
      (hi.eq_rename hr.sound.matched).symm
    rw [e, hk] at hv
    obtain ⟨u, hu, hmu⟩ := hv.table
    exact ⟨u, .value ht hu, hmu⟩

theorem Copied.isomorphic (hr : Copied h ⟨h, []⟩ object r) :
    Isomorphic h r.2.heap object r.1 (partner r.2.lookup_table) where
  root := hr.image.eq_rename hr.sound.matched
  injective t u ht hu e := by
    obtain ⟨t', ht'⟩ := hr.exists_copy ht
    obtain ⟨u', hu'⟩ := hr.exists_copy hu
    rw [partner_eq hr.sound.matched ht', partner_eq hr.sound.matched hu'] at e
    exact (hr.sound.matched _ ht' _ hu').mpr e
  field t k ht hk := by
    obtain ⟨t', ht'⟩ := hr.exists_copy ht
    obtain ⟨k', hk', hv⟩ := (hr.all ht').field k hk
    rw [partner_eq hr.sound.matched ht', ← hk'.eq_rename hr.sound.matched]
    exact hv.eq_rename hr.sound.matched
  only t k' ht hk := by
    obtain ⟨t', ht'⟩ := hr.exists_copy ht
    rw [partner_eq hr.sound.matched ht'] at hk
    obtain ⟨k, hi, hn⟩ := (hr.all ht').only k' hk
    exact ⟨k, hi.eq_rename hr.sound.matched, hn⟩

/-- A copy has the metatable that `getmetatable` gives for its table. -/
theorem Copied.getmetatable (hr : Copied h ⟨h, []⟩ object r) {t : Nat} (ht : Reaches h object t) :
    h.getmetatable t = metaValue r.2.heap (partner r.2.lookup_table t) := by
  obtain ⟨t', ht'⟩ := hr.exists_copy ht
  rw [partner_eq hr.sound.matched ht']
  exact (hr.all ht').meta_

end

/-- `v'` in `h'` is a clone of `v` in `h`, in which `ι t` is the copy of the table `t`. -/
structure Clone (h h' : Heap) (v v' : Value) (ι : Nat → Nat) : Prop where
  isomorphic : Isomorphic h h' v v' ι
  metatable : ∀ t, Reaches h v t → h'.metatable (ι t) = h.metatable t
  new : ∀ t', Reaches h' v' t' → h.size ≤ t'
  orig : ∀ t < h.size, h'.table t = h.table t

/-- `clone` and `table.deepcopy` return a clone, whatever the tables refer to, as long as no
metatable has a field `__pairs` or `__metatable`. -/
theorem clone_isomorphic (horder : ∀ h t, (order h t).Perm (h.table t).keys) (h : Heap)
    (hc : h.Closed) (object : Value) (hobj : ∀ t, object = .table t → t < h.size)
    (hmeta : ∀ t m, Reaches h object t → h.metatable t = some m →
      h.get m (.str "__pairs") = .nil ∧ h.get m (.str "__metatable") = .nil) :
    ∃ v' h' ι,
      (∀ fuel > h.size, clone order fuel object h = .ok (v', h') ∧
        tableDeepcopy order fuel object false h = .ok (v', h')) ∧
      Clone h h' object v' ι := by
  have hget : ∀ t, Reaches h object t → h.getmetatable t = metaValue h t := by
    intro t ht
    rw [Heap.getmetatable, metaValue]
    cases hm : h.metatable t with
    | none => rfl
    | some m =>
      simp only [(hmeta t m ht hm).2]
      rfl
  have hplain : ¬Refused h object := by
    rintro ⟨t, ht, hn⟩
    refine hn ⟨?_, ?_⟩
    · rw [Heap.metafield]
      cases hm : h.metatable t with
      | none => rfl
      | some m => exact (hmeta t m ht hm).1
    · rw [Settable, hget t ht, metaValue]
      cases h.metatable t with
      | none => exact .inl rfl
      | some m => exact .inr rfl
  obtain ⟨r, hrun, hr⟩ := (deepCopy_whole horder hc object hobj).returns hplain
  refine ⟨r.1, r.2.heap, partner r.2.lookup_table, fun fuel hf => ?_, hr.isomorphic,
    fun t ht => ?_, fun t' ht' => ?_, hr.sound.orig⟩
  · rw [clone, tableDeepcopy, hrun fuel hf]
    exact ⟨rfl, rfl⟩
  · have e := hr.getmetatable ht
    rw [hget t ht, metaValue, metaValue] at e
    cases hm : h.metatable t <;> cases hm' : r.2.heap.metatable (partner r.2.lookup_table t) <;>
      simp_all
  · obtain ⟨t, -, hm⟩ := hr.back ht'
    exact (hr.sound.fresh _ hm).1

end

/-- Two tables that refer to each other, one of them a key as well, and with a metatable. -/
def knotHeap : Heap :=
  let empty : Heap := ⟨3, fun _ => .empty, fun _ => [], fun _ => .nil⟩
  ((((empty.set 0 (.str "next") (.table 1)).set 0 (.table 1) (.num 7)).set 1 (.str "back")
    (.table 0)).set 2 (.str "__index") (.table 2)).setMeta 1 (some 2)

theorem knotHeap_closed : knotHeap.Closed := by
  refine ⟨fun t k u _ hu => ?_, fun t u _ hu => ?_, fun t m _ hm => ?_⟩
  · simp only [knotHeap, Heap.get_setMeta, Heap.get_set] at hu
    split at hu
    · cases hu; decide
    split at hu
    · cases hu; decide
    split at hu
    · cases hu
    split at hu
    · cases hu; decide
    · cases hu
  · simp only [knotHeap, Heap.get_setMeta, Heap.get_set] at hu
    split at hu
    · rename_i e
      cases e.2
    split at hu
    · rename_i e
      cases e.2
    split at hu
    · rename_i e
      cases e.2
      decide
    split at hu
    · rename_i e
      cases e.2
    · exact absurd rfl hu
  · simp only [knotHeap, Heap.metatable_setMeta, Heap.metatable_set] at hm
    split at hm
    · cases hm; decide
    · cases hm

theorem clone_isomorphic_knot :
    let order := fun (h : Heap) t => (h.table t).keys
    ((clone order 4 (.table 0) knotHeap).toOption.map fun r => (r.1, r.2.get 3 (.str "next"),
      r.2.get 3 (.table 4), r.2.get 4 (.str "back"), r.2.metatable 4)) =
        some (.table 3, .table 4, .num 7, .table 3, some 2) ∧
    ∃ v' h' ι,
      (∀ fuel > 3, clone order fuel (.table 0) knotHeap = .ok (v', h') ∧
        tableDeepcopy order fuel (.table 0) false knotHeap = .ok (v', h')) ∧
      Clone knotHeap h' (.table 0) v' ι := by
  refine ⟨by decide, clone_isomorphic (fun _ _ => .refl _) knotHeap knotHeap_closed (.table 0)
    (fun t ht => ?_) fun t m _ hm => ?_⟩
  · cases ht
    decide
  · have hm : m = 2 := by
      simp only [knotHeap, Heap.metatable_setMeta, Heap.metatable_set] at hm
      split at hm
      · cases hm; rfl
      · cases hm
    subst hm
    decide

end SkynetHotfix.Luaext
