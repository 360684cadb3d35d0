import SkynetHotfix.Luaext.TableCopy

/-!
# Where the fields of a copy go

Where a metatable has `__newindex`, an assignment of `table.copy` is diverted
to another table, and what that does to the heap can be anything. What it
cannot do is get at a table that nothing refers to (`Sealed`): the result of a
call, until the call returns. So a field that has not come to the result stays
away, and what is wrong with a copy stays wrong (`Bad`), while all that comes
before is as in a clean heap.

* `tableCopy_frames`: a call leaves sealed tables alone, and its result is
  sealed;
* `tableCopy_judged`: a call that returns has found all tables writable, or
  its result is bad.
-/

namespace SkynetHotfix.Luaext

open Lua Fuel Relation

/-- The tables `S` are referred to by each other only, and by no table as its metatable. -/
structure Sealed (S : Nat → Prop) (H : Heap) : Prop where
  lt : ∀ x, S x → x < H.size
  field : ∀ x k y, x < H.size → ¬S x → H.get x k = .table y → ¬S y
  metatable : ∀ x m, x < H.size → H.metatable x = some m → ¬S m

section

variable {order : Heap → Nat → List Value} {S : Nat → Prop} {H H' H'' : Heap} {t p r w : Nat}
  {key v : Value} {ks ks' : List Value}

/-- An assignment comes to its own table, or to one outside. -/
theorem Sealed.walk (hs : Sealed S H) (hc : H.Closed) {event : String} {hops : Nat}
    (ht : t < H.size) (hw : H.walk event hops t key = some p) :
    p < H.size ∧ (p = t ∨ ¬S p) := by
  induction hops generalizing t with
  | zero =>
    rw [Heap.walk] at hw
    split at hw
    · cases hw
      exact ⟨ht, .inl rfl⟩
    · cases hw
  | succ hops ih =>
    rw [Heap.walk] at hw
    split at hw
    · cases hw
      exact ⟨ht, .inl rfl⟩
    cases hm : H.metatable t with
    | none =>
      rw [hm] at hw
      cases hw
      exact ⟨ht, .inl rfl⟩
    | some m =>
      rw [hm] at hw
      have hmlt := hc.metatable t m ht hm
      simp only at hw
      split at hw
      · cases hw
        exact ⟨ht, .inl rfl⟩
      · -- the metatable is outside, and so is what it refers to
        rename_i q hq
        have hout := hs.field m _ q hmlt (hs.metatable t m ht hm) hq
        obtain ⟨hlt, h⟩ := ih (hc.field m _ q hmlt hq) hw
        exact ⟨hlt, .inr (h.elim (fun e => e ▸ hout) id)⟩
      · cases hw

theorem Sealed.set (hs : Sealed S H) (hv : ∀ y, v = .table y → S p ∨ ¬S y) :
    Sealed S (H.set p key v) where
  lt := hs.lt
  field x k y hx hout hy := by
    rw [Heap.get_set] at hy
    split at hy
    · rename_i e
      exact (hv y hy).resolve_left fun h => hout (e.1 ▸ h)
    · exact hs.field x k y hx hout hy
  metatable x m hx hm := by
    rw [Heap.metatable_set] at hm
    exact hs.metatable x m hx hm

theorem closed_set (hc : H.Closed) (hk : ∀ y, key = .table y → y < H.size)
    (hv : ∀ y, v = .table y → y < H.size) : (H.set p key v).Closed where
  field x k y hx hy := by
    rw [Heap.get_set] at hy
    split at hy
    · exact hv y hy
    · exact hc.field x k y hx hy
  key x y hx hy := by
    rw [Heap.get_set] at hy
    split at hy
    · rename_i e
      exact hk y e.2.symm
    · exact hc.key x y hx hy
  metatable x m hx hm := by
    rw [Heap.metatable_set] at hm
    exact hc.metatable x m hx hm

/-- What is done to `r` under the keys `ks` leaves the sealed tables alone, but for `r` itself. -/
structure Filled (S : Nat → Prop) (r : Nat) (ks : List Value) (H H' : Heap) : Prop where
  closed : H'.Closed
  size : H.size ≤ H'.size
  sealed : Sealed S H'
  same : ∀ x, S x → x ≠ r → H'.table x = H.table x
  grow : ∀ x < H.size, ∀ k, H.get x k ≠ .nil → H'.get x k ≠ .nil
  field : S r → ∀ k, k ∉ ks → H'.get r k = H.get r k
  meta_ : S r → H'.metatable r = H.metatable r

theorem Filled.refl (hc : H.Closed) (hs : Sealed S H) : Filled S r [] H H :=
  ⟨hc, Nat.le_refl _, hs, fun _ _ _ => rfl, fun _ _ _ => id, fun _ _ _ => rfl, fun _ => rfl⟩

theorem Filled.trans (h : Filled S r ks H H') (h' : Filled S r ks' H' H'') :
    Filled S r (ks ++ ks') H H'' where
  closed := h'.closed
  size := h.size.trans h'.size
  sealed := h'.sealed
  same x hx hr := (h'.same x hx hr).trans (h.same x hx hr)
  grow x hx k hk := h'.grow x (Nat.lt_of_lt_of_le hx h.size) k (h.grow x hx k hk)
  field hr k hk := by
    rw [List.mem_append, not_or] at hk
    exact (h'.field hr k hk.2).trans (h.field hr k hk.1)
  meta_ hr := (h'.meta_ hr).trans (h.meta_ hr)

/-- What a call leaves: it does nothing to a sealed table, and its result is sealed. -/
def Frames (copy : Nat → Heap → Result (Nat × Heap)) : Prop :=
  ∀ S u H p, H.Closed → u < H.size → Sealed S H → ¬S u → copy u H = .ok p →
    Filled S p.1 [] H p.2 ∧ H.size ≤ p.1 ∧ p.1 < p.2.size ∧ Sealed (· = p.1) p.2

/-- What a call leaves of the sealed tables. -/
theorem Filled.call (h : Filled S p [] H H') (hs : Sealed S H) (hp : H.size ≤ p) (r : Nat) :
    Filled S r [] H H' := by
  have hsame : ∀ x, S x → H'.table x = H.table x := fun x hx => by
    have hlt := hs.lt x hx
    exact h.same x hx (by omega)
  exact ⟨h.closed, h.size, h.sealed, fun x hx _ => hsame x hx, h.grow,
    fun hr k _ => Heap.get_congr (hsame r hr) k, fun hr => Heap.metatable_congr (hsame r hr)⟩

/-- An assignment to `r` leaves the sealed tables alone. -/
theorem Filled.newindex (hc : H.Closed) (hs : Sealed S H) (hr : r < H.size)
    (hk : ∀ y, key = .table y → y < H.size) (hv : v ≠ .nil)
    (hy : ∀ y, v = .table y → y < H.size ∧ ¬S y) (hw : H.newindex r key v = some H') :
    Filled S r [key] H H' := by
  obtain ⟨p, hp, rfl⟩ := Option.map_eq_some_iff.mp hw
  obtain ⟨hplt, hout⟩ := hs.walk hc hr hp
  refine ⟨closed_set hc hk fun y e => (hy y e).1, Nat.le_refl _,
    hs.set fun y e => .inr (hy y e).2, fun x hx hxr => ?_, fun x _ k hxk => ?_,
    fun hsr k hk' => ?_, fun _ => Heap.metatable_set _ _ _ _ _⟩
  · refine Heap.table_set_ne H (fun e => ?_) _ _
    rcases hout with rfl | hout
    · exact hxr e
    · exact hout (e ▸ hx)
  · rw [Heap.get_set]
    split
    · exact hv
    · exact hxk
  · rw [Heap.get_set, if_neg]
    rintro ⟨-, rfl⟩
    simp at hk'

/-- What a turn of the loop does that returns: it stores a copy of the table, or the value. -/
theorem tableCopyField_ok {copy : Nat → Heap → Result (Nat × Heap)} (hn : H.get w key ≠ .nil)
    (h : tableCopyField Heap.raises copy w r H key = .ok H') :
    (∃ u p, H.get w key = .table u ∧ copy u H = .ok p ∧
      p.2.newindex r key (.table p.1) = some H') ∨
    ((∀ u, H.get w key ≠ .table u) ∧ H.newindex r key (H.get w key) = some H') := by
  have hok : ∀ x : Option Heap, orRaise x = .ok H' → x = some H' := by
    intro x hx
    cases x <;> cases hx
    rfl
  by_cases hu : ∃ u, H.get w key = .table u
  · obtain ⟨u, hu⟩ := hu
    rw [tableCopyField_table hu, bind_eq_ok] at h
    obtain ⟨p, hp, h⟩ := h
    rw [Heap.setIndex_raises] at h
    exact .inl ⟨u, p, hu, hp, hok _ h⟩
  · have hu : ∀ u, H.get w key ≠ .table u := fun u e => hu ⟨u, e⟩
    rw [tableCopyField_scalar hn hu, Heap.setIndex_raises] at h
    exact .inr ⟨hu, hok _ h⟩

/-- A turn of the loop leaves the sealed tables alone. -/
theorem turn_filled {copy : Nat → Heap → Result (Nat × Heap)} (hcopy : Frames copy)
    (hc : H.Closed) (hs : Sealed S H) (hr : r < H.size) (hlt : w < H.size) (hw : ¬S w)
    (h : tableCopyField Heap.raises copy w r H key = .ok H') : Filled S r [key] H H' := by
  by_cases hn : H.get w key = .nil
  · have h : (.ok H : Result Heap) = .ok H' := by
      rw [← h]
      unfold tableCopyField
      rw [hn]
    cases h
    refine ⟨hc, Nat.le_refl _, hs, fun _ _ _ => rfl, fun _ _ _ => id, fun _ _ _ => rfl,
      fun _ => rfl⟩
  have hkey : ∀ y, key = .table y → y < H.size := fun y e => hc.key w y hlt (e ▸ hn)
  rcases tableCopyField_ok hn h with ⟨u, p, hu, hp, hi⟩ | ⟨hu, hi⟩
  · obtain ⟨hf, hge, hplt, -⟩ := hcopy S u H p hc (hc.field w key u hlt hu) hs
      (hs.field w key u hlt hw hu) hp
    have hf := hf.call hs hge r
    refine hf.trans (Filled.newindex hf.closed hf.sealed (Nat.lt_of_lt_of_le hr hf.size)
      (fun y e => Nat.lt_of_lt_of_le (hkey y e) hf.size) Value.noConfusion (fun y e => ?_) hi)
    cases e
    refine ⟨hplt, fun hS => ?_⟩
    -- what is sealed was there before the call
    have := hs.lt _ hS
    omega
  · exact Filled.newindex hc hs hr hkey hn (fun y e => absurd e (hu y)) hi

/-- The loop leaves the sealed tables alone. -/
theorem loop_filled {copy : Nat → Heap → Result (Nat × Heap)} (hcopy : Frames copy)
    (hc : H.Closed) (hs : Sealed S H) (hr : r < H.size) (hlt : w < H.size) (hw : ¬S w)
    (h : ks.foldlM (tableCopyField Heap.raises copy w r) H = .ok H') : Filled S r ks H H' := by
  induction ks generalizing H with
  | nil =>
    cases h
    exact .refl hc hs
  | cons k ks ih =>
    rw [List.foldlM_cons, bind_eq_ok] at h
    obtain ⟨H₁, h₁, h⟩ := h
    have hf := turn_filled hcopy hc hs hr hlt hw h₁
    exact hf.trans (ih hf.closed hf.sealed (Nat.lt_of_lt_of_le hr hf.size)
      (Nat.lt_of_lt_of_le hlt hf.size) h)

theorem Sealed.getmetatable {m : Nat} (hs : Sealed S H) (hc : H.Closed) (ht : t < H.size)
    (hm : H.getmetatable t = .table m) : ¬S m := by
  unfold Heap.getmetatable at hm
  cases e : H.metatable t with
  | none =>
    rw [e] at hm
    cases hm
  | some m' =>
    rw [e] at hm
    have hout' := hs.metatable t m' ht e
    simp only at hm
    split at hm
    · cases hm
      exact hout'
    · exact hs.field m' _ m (hc.metatable t m' ht e) hout' hm

theorem Begun.closed {B : Heap} {nometa : Bool} (hb : Begun B w nometa H) (hc : B.Closed)
    (hlt : w < B.size) : H.Closed := by
  have hsize := hb.size
  refine ⟨fun x k y hx hy => ?_, fun x y hx hy => ?_, fun x m hx hm => ?_⟩
  · by_cases e : x = B.size
    · rw [e, hb.empty] at hy
      cases hy
    · rw [Heap.get_congr (hb.same x (by omega))] at hy
      have := hc.field x k y (by omega) hy
      omega
  · by_cases e : x = B.size
    · rw [e, hb.empty] at hy
      exact absurd rfl hy
    · rw [Heap.get_congr (hb.same x (by omega))] at hy
      have := hc.key x y (by omega) hy
      omega
  · by_cases e : x = B.size
    · rw [e, hb.meta_] at hm
      have := Heap.getmetatable_lt hc hlt (getmetatable_of_startMeta hm).2
      omega
    · rw [Heap.metatable_congr (hb.same x (by omega))] at hm
      have := hc.metatable x m (by omega) hm
      omega

/-- The tables that were sealed are, and so is the result. -/
theorem Begun.sealed {B : Heap} {nometa : Bool} (hb : Begun B w nometa H)
    (hlt : ∀ x, S x → x < H.size)
    (hfield : ∀ x k y, x < B.size → ¬S x → B.get x k = .table y → ¬S y)
    (hmeta : ∀ x m, x < B.size → B.metatable x = some m → ¬S m)
    (hget : ∀ m, B.getmetatable w = .table m → ¬S m) : Sealed S H := by
  have hsize := hb.size
  refine ⟨hlt, fun x k y hx hx' hy => ?_, fun x m hx hm => ?_⟩
  · by_cases e : x = B.size
    · rw [e, hb.empty] at hy
      cases hy
    · rw [Heap.get_congr (hb.same x (by omega))] at hy
      exact hfield x k y (by omega) hx' hy
  · by_cases e : x = B.size
    · rw [e, hb.meta_] at hm
      exact hget m (getmetatable_of_startMeta hm).2
    · rw [Heap.metatable_congr (hb.same x (by omega))] at hm
      exact hmeta x m (by omega) hm

/-- A call leaves the sealed tables alone, and its result is sealed. -/
theorem tableCopy_frames (fuel : Nat) :
    ∀ nometa, Frames fun u h => tableCopy order Heap.raises fuel u nometa h := by
  induction fuel with
  | zero =>
    intro nometa S u H p _ _ _ _ h
    cases h
  | succ fuel ih =>
    intro nometa S w B p hc hlt hs hout h
    obtain ⟨hbegun, -⟩ := beginCopy_eq hlt fun m => hc.metatable w m hlt
    have h : tableCopy order Heap.raises (fuel + 1) w nometa B = .ok p := h
    rw [tableCopy_succ, bind_eq_ok] at h
    obtain ⟨H, hH, h⟩ := h
    rw [bind_eq_ok] at h
    obtain ⟨keys, -, h⟩ := h
    rw [bind_eq_ok] at h
    obtain ⟨H', hloop, h⟩ := h
    cases h
    have hb := hbegun H hH
    have hsize := hb.size
    have hseal : Sealed S H := hb.sealed (fun x hx => by have := hs.lt x hx; omega) hs.field
      hs.metatable fun m => hs.getmetatable hc hlt
    have hself : Sealed (· = B.size) H := hb.sealed (fun x hx => by omega)
      (fun x k y hx _ hy => Nat.ne_of_lt (hc.field x k y hx hy))
      (fun x m hx hm => Nat.ne_of_lt (hc.metatable x m hx hm))
      fun m hm => Nat.ne_of_lt (Heap.getmetatable_lt hc hlt hm)
    have hcH := hb.closed hc hlt
    have hf := loop_filled (ih false) hcH hseal (by omega) (by omega) hout hloop
    have hf' := loop_filled (ih false) hcH hself (by omega) (by omega) (Nat.ne_of_lt hlt) hloop
    have hge := hf.size
    refine ⟨⟨hf.closed, by simp only; omega, hf.sealed, fun x hx hxr => ?_, fun x hx k hk => ?_,
      fun hS => ?_, fun hS => ?_⟩, Nat.le_refl _, by simp only; omega, hf'.sealed⟩
    · exact (hf.same x hx hxr).trans (hb.same x (hs.lt x hx))
    · refine hf.grow x (by omega) k ?_
      rw [Heap.get_congr (hb.same x hx)]
      exact hk
    · exact absurd (hs.lt _ hS) (Nat.lt_irrefl _)
    · exact absurd (hs.lt _ hS) (Nat.lt_irrefl _)

/-! ## What a call has found -/

variable {h₀ : Heap} {bare : Prop} {b : Nat} {mt : Option Nat}

/-- The copy that is asked for. -/
def Fine (h₀ : Heap) (bare : Prop) (H : Heap) (w r : Nat) : Prop :=
  CopyOf h₀ H (fun x => bare → H.metatable x = none) w r

/-- As long as some sealed tables, all of them from `b` on, are left alone, `r` is no copy. -/
def Bad (h₀ : Heap) (bare : Prop) (b w r : Nat) (H : Heap) : Prop :=
  ∃ S : Nat → Prop, S r ∧ (∀ x, S x → b ≤ x) ∧ Sealed S H ∧
    ∀ H', (∀ x, S x → H'.table x = H.table x) → ¬Fine h₀ bare H' w r

/-- The same by one field of `r`. -/
def Spoilt (h₀ : Heap) (bare : Prop) (b w r : Nat) (key : Value) (H : Heap) : Prop :=
  ∃ S : Nat → Prop, S r ∧ (∀ x, S x → b ≤ x) ∧ Sealed S H ∧
    ∀ H', (∀ x, S x → x ≠ r → H'.table x = H.table x) → H'.get r key = H.get r key →
      ¬Fine h₀ bare H' w r

theorem Spoilt.bad (h : Spoilt h₀ bare b w r key H) : Bad h₀ bare b w r H := by
  obtain ⟨S, hr, hb, hs, hbad⟩ := h
  exact ⟨S, hr, hb, hs, fun H' h' =>
    hbad H' (fun x hx _ => h' x hx) (Heap.get_congr (h' r hr) key)⟩

/-- A field that has not come to the result. -/
theorem spoilt_of_nil (hs : Sealed (· = r) H) (hb : b ≤ r) (hn : H.get r key = .nil)
    (hk : h₀.get w key ≠ .nil) : Spoilt h₀ bare b w r key H := by
  refine ⟨(· = r), rfl, fun x hx => hx ▸ hb, hs, fun H' _ hget hfine => ?_⟩
  exact hfine.get_ne_nil hk (hget.trans hn)

/-- What is spoilt stays so, whatever the loop does under other keys. -/
theorem Spoilt.filled (h : Spoilt h₀ bare b w r key H) (hwb : w < b) (hk : key ∉ ks)
    (hf : ∀ S, Sealed S H → ¬S w → Filled S r ks H H') : Spoilt h₀ bare b w r key H' := by
  obtain ⟨S, hr, hb, hs, hbad⟩ := h
  have hf := hf S hs fun hw => by have := hb w hw; omega
  exact ⟨S, hr, hb, hf.sealed, fun H'' hsame hget => hbad H''
    (fun x hx hxr => (hsame x hx hxr).trans (hf.same x hx hxr)) (hget.trans (hf.field hr key hk))⟩

/-- What is asked of each table within. -/
def Ok (h₀ : Heap) (bare : Prop) (u : Nat) : Prop :=
  Writable h₀ u ∧ (bare → h₀.metatable u = none)

/-- All tables within `w` are as they have to be, and the heap is clean; or the copy is bad. -/
def Judged (h₀ : Heap) (bare : Prop) (b w r : Nat) (H : Heap) : Prop :=
  (Clean h₀ H ∧ ∀ x, Nested h₀ w x → Ok h₀ bare x) ∨ Bad h₀ bare b w r H

/-- The state of the loop that fills `r` from `w` as long as nothing has gone wrong. -/
structure Going (h₀ : Heap) (w r : Nat) (mt : Option Nat) (H : Heap) : Prop where
  clean : Clean h₀ H
  closed : H.Closed
  sealed : Sealed (· = r) H
  lt : r < H.size
  beyond : h₀.size ≤ r
  source : w < h₀.size
  meta_ : H.metatable r = mt

/-- An assignment is diverted where there is `__newindex` and no such field. -/
theorem newindex_diverted {m : Nat} (hc : H.Closed) (hs : Sealed (· = r) H) (hr : r < H.size)
    (hn : H.get r key = .nil) (hm : H.metatable r = some m)
    (hi : H.get m (.str "__newindex") ≠ .nil) (h : H.newindex r key v = some H') :
    H'.get r key = .nil := by
  obtain ⟨p, hp, rfl⟩ := Option.map_eq_some_iff.mp h
  have hmlt := hc.metatable r m hr hm
  rw [Heap.maxHops, Heap.walk, if_neg (fun h => h hn), hm] at hp
  simp only at hp
  split at hp
  · rename_i e
    exact absurd e hi
  · rename_i q hq
    have hqr : q ≠ r := hs.field m _ q hmlt (hs.metatable r m hr hm) hq
    obtain ⟨-, hpq⟩ := hs.walk hc (hc.field m _ q hmlt hq) hp
    have hpr : p ≠ r := hpq.elim (fun e => e ▸ hqr) id
    rw [Heap.get_set, if_neg fun e => hpr e.1.symm]
    exact hn
  · cases hp

/-- A turn of the loop with a metatable that has `__newindex` spoils the copy. -/
theorem Going.diverted {copy : Nat → Heap → Result (Nat × Heap)} {m : Nat} (hcopy : Frames copy)
    (hg : Going h₀ w r (some m) H) (hi : H.get m (.str "__newindex") ≠ .nil)
    (hn : H.get r key = .nil) (hk : h₀.get w key ≠ .nil) (hb : b ≤ r)
    (h : tableCopyField Heap.raises copy w r H key = .ok H') : Spoilt h₀ bare b w r key H' := by
  have hlt : w < H.size := Nat.lt_of_lt_of_le hg.source hg.clean.size
  have hne : w ≠ r := Nat.ne_of_lt (Nat.lt_of_lt_of_le hg.source hg.beyond)
  have hget : H.get w key = h₀.get w key := Heap.get_congr (hg.clean.orig w hg.source) key
  have hf := turn_filled hcopy hg.closed hg.sealed hg.lt hlt hne h
  refine spoilt_of_nil hf.sealed hb ?_ hk
  rcases tableCopyField_ok (hget.symm ▸ hk) h with ⟨u, p, hu, hp, hd⟩ | ⟨-, hd⟩
  · have hur : u ≠ r := hg.sealed.field w key u hlt hne hu
    obtain ⟨hf, hge, -, -⟩ := hcopy (· = r) u H p hg.closed (hg.closed.field w key u hlt hu)
      hg.sealed hur hp
    have hf := hf.call hg.sealed hge r
    have hmlt := hg.closed.metatable r m hg.lt hg.meta_
    exact newindex_diverted hf.closed hf.sealed (Nat.lt_of_lt_of_le hg.lt hf.size)
      ((hf.field rfl key (by simp)).trans hn) ((hf.meta_ rfl).trans hg.meta_)
      (hf.grow m hmlt _ hi) hd
  · exact newindex_diverted hg.closed hg.sealed hg.lt hn hg.meta_ hi hd

/-- The calls in clean heaps are judged. -/
def Judges (h₀ : Heap) (bare : Prop) (copy : Nat → Heap → Result (Nat × Heap)) : Prop :=
  ∀ u H p, Clean h₀ H → H.Closed → u < h₀.size → copy u H = .ok p →
    Judged h₀ bare H.size u p.1 p.2

/-- A field is put in the result. -/
theorem Going.put (hg : Going h₀ w r mt H) (hc : (H.set r key v).Closed)
    (hs : Sealed (· = r) (H.set r key v)) : Going h₀ w r mt (H.set r key v) := by
  have hbeyond := hg.beyond
  refine ⟨⟨hg.clean.size, fun x hx => ?_⟩, hc, hs, hg.lt, hbeyond, hg.source, ?_⟩
  · rw [Heap.table_set_ne H (by omega)]
    exact hg.clean.orig x hx
  · rw [Heap.metatable_set]
    exact hg.meta_

/-- A bad copy that has come to the result makes a bad copy of this. -/
theorem spoilt_of_bad {u u' : Nat} (hu : h₀.get w key = .table u) (hs : Sealed (· = r) H)
    (hr : r < H.size) (hrb : b ≤ r) {c : Nat} (hc : r < c) (hbad : Bad h₀ bare c u u' H) :
    Spoilt h₀ bare b w r key (H.set r key (.table u')) := by
  obtain ⟨S, -, hge, hS, hbad⟩ := hbad
  have hrS : ∀ x, S x → x ≠ r := fun x hx => by
    have := hge x hx
    omega
  refine ⟨fun x => x = r ∨ S x, .inl rfl, fun x hx => ?_, ⟨fun x hx => ?_,
    fun x k y hx hout hy => ?_, fun x m hx hm => ?_⟩, fun H' hsame hget hfine => ?_⟩
  · rcases hx with rfl | hx
    · exact hrb
    · have := hge x hx
      omega
  · rcases hx with rfl | hx
    · exact hr
    · exact hS.lt x hx
  · rw [not_or] at hout ⊢
    rw [Heap.get_set, if_neg fun e => hout.1 e.1] at hy
    exact ⟨hs.field x k y hx hout.1 hy, hS.field x k y hx hout.2 hy⟩
  · rw [Heap.metatable_set] at hm
    exact not_or.mpr ⟨hs.metatable x m hx hm, hS.metatable x m hx hm⟩
  · obtain ⟨u₂, hu₂, hcopy⟩ := hfine.field hu
    rw [hget, Heap.get_set, if_pos ⟨rfl, rfl⟩] at hu₂
    cases hu₂
    exact hbad H' (fun x hx => (hsame x (.inr hx) (hrS x hx)).trans
      (Heap.table_set_ne H (hrS x hx) _ _)) hcopy

/-- A turn of the loop with a metatable that has no `__newindex`. -/
theorem Going.turn {copy : Nat → Heap → Result (Nat × Heap)} (hc₀ : h₀.Closed)
    (hcopy : Frames copy) (hjudge : Judges h₀ bare copy) (hg : Going h₀ w r mt H)
    (hraw : RawMeta h₀ mt)
    (hn : H.get r key = .nil) (hk : h₀.get w key ≠ .nil) (hb : b ≤ r)
    (h : tableCopyField Heap.raises copy w r H key = .ok H') :
    (Going h₀ w r mt H' ∧ ∀ u, h₀.get w key = .table u → ∀ x, Nested h₀ u x → Ok h₀ bare x) ∨
      Spoilt h₀ bare b w r key H' := by
  have hlt : w < H.size := Nat.lt_of_lt_of_le hg.source hg.clean.size
  have hne : w ≠ r := Nat.ne_of_lt (Nat.lt_of_lt_of_le hg.source hg.beyond)
  have hget : H.get w key = h₀.get w key := Heap.get_congr (hg.clean.orig w hg.source) key
  have hf := turn_filled hcopy hg.closed hg.sealed hg.lt hlt hne h
  rcases tableCopyField_ok (hget.symm ▸ hk) h with ⟨u, p, hu, hp, hi⟩ | ⟨hu, hi⟩
  · have hu₀ : h₀.get w key = .table u := hget ▸ hu
    have hult : u < H.size := hg.closed.field w key u hlt hu
    obtain ⟨hfp, hge, hplt, -⟩ := hcopy (· = r) u H p hg.closed hult hg.sealed
      (hg.sealed.field w key u hlt hne hu) hp
    have hfp := hfp.call hg.sealed hge r
    have hrp := Nat.lt_of_lt_of_le hg.lt hfp.size
    have hmp := (hfp.meta_ rfl).trans hg.meta_
    have hu₀lt := hc₀.field w key u hg.source hu₀
    rcases hjudge u H p hg.clean hg.closed hu₀lt hp with ⟨hclean, hok⟩ | hbad
    · -- the call has found nothing wrong
      have hgp : Going h₀ w r mt p.2 :=
        ⟨hclean, hfp.closed, hfp.sealed, hrp, hg.beyond, hg.source, hmp⟩
      rw [← Heap.setIndex_raises, setIndex_raw hclean (by rw [hmp]; exact hraw)] at hi
      cases hi
      refine .inl ⟨hgp.put hf.closed hf.sealed, fun u' hu' => ?_⟩
      cases hu₀.symm.trans hu'
      exact hok
    · -- its result is bad, and comes to `r` or not
      right
      obtain ⟨q, -, rfl⟩ := Option.map_eq_some_iff.mp hi
      by_cases hq : q = r
      · subst hq
        exact spoilt_of_bad hu₀ hfp.sealed hrp hb hg.lt hbad
      · refine spoilt_of_nil hf.sealed hb ?_ hk
        rw [Heap.get_set, if_neg fun e => hq e.1.symm]
        exact (hfp.field rfl key (by simp)).trans hn
  · rw [← Heap.setIndex_raises, setIndex_raw hg.clean (by rw [hg.meta_]; exact hraw)] at hi
    cases hi
    exact .inl ⟨hg.put hf.closed hf.sealed, fun u hu' => absurd (hget.trans hu') (hu u)⟩

/-- What is spoilt stays so to the end of the loop. -/
theorem Spoilt.loop {copy : Nat → Heap → Result (Nat × Heap)} (hcopy : Frames copy)
    (hsp : Spoilt h₀ bare b w r key H) (hc : H.Closed) (hr : r < H.size) (hlt : w < H.size)
    (hwb : w < b) (hk : key ∉ ks) (h : ks.foldlM (tableCopyField Heap.raises copy w r) H = .ok H') :
    Spoilt h₀ bare b w r key H' :=
  hsp.filled hwb hk fun _ hs hw => loop_filled hcopy hc hs hr hlt hw h

/-- The loop with a metatable that has no `__newindex`. -/
theorem Going.loop {copy : Nat → Heap → Result (Nat × Heap)} (hc₀ : h₀.Closed)
    (hcopy : Frames copy) (hjudge : Judges h₀ bare copy) (hg : Going h₀ w r mt H)
    (hraw : ks ≠ [] → RawMeta h₀ mt) (hnodup : ks.Nodup) (hks : ∀ k ∈ ks, h₀.get w k ≠ .nil)
    (hn : ∀ k ∈ ks, H.get r k = .nil) (hb : b ≤ r) (hwb : w < b)
    (h : ks.foldlM (tableCopyField Heap.raises copy w r) H = .ok H') :
    (Going h₀ w r mt H' ∧ ∀ k ∈ ks, ∀ u, h₀.get w k = .table u → ∀ x, Nested h₀ u x →
      Ok h₀ bare x) ∨ ∃ k, Spoilt h₀ bare b w r k H' := by
  induction ks generalizing H with
  | nil =>
    cases h
    exact .inl ⟨hg, by simp⟩
  | cons k ks ih =>
    have hraw' := hraw (List.cons_ne_nil _ _)
    rw [List.foldlM_cons, bind_eq_ok] at h
    obtain ⟨H₁, h₁, h⟩ := h
    obtain ⟨hknot, hnodup⟩ := List.nodup_cons.mp hnodup
    have hlt : w < H.size := Nat.lt_of_lt_of_le hg.source hg.clean.size
    have hne : w ≠ r := Nat.ne_of_lt (Nat.lt_of_lt_of_le hg.source hg.beyond)
    have hf := turn_filled hcopy hg.closed hg.sealed hg.lt hlt hne h₁
    rcases hg.turn hc₀ hcopy hjudge hraw' (hn k List.mem_cons_self) (hks k List.mem_cons_self) hb
      h₁ with ⟨hg₁, hok⟩ | hsp
    · have hn₁ : ∀ k' ∈ ks, H₁.get r k' = .nil := fun k' hk' => by
        rw [hf.field rfl k' (by rw [List.mem_singleton]; rintro rfl; exact hknot hk')]
        exact hn k' (List.mem_cons_of_mem _ hk')
      rcases ih hg₁ (fun _ => hraw') hnodup (fun k' hk' => hks k' (List.mem_cons_of_mem _ hk')) hn₁
        h with ⟨hg', hok'⟩ | hsp
      · refine .inl ⟨hg', fun k' hk' => ?_⟩
        rcases List.mem_cons.mp hk' with rfl | hk'
        · exact hok
        · exact hok' k' hk'
      · exact .inr hsp
    · exact .inr ⟨k, hsp.loop hcopy hf.closed (Nat.lt_of_lt_of_le hg.lt hf.size)
        (Nat.lt_of_lt_of_le hlt hf.size) hwb hknot h⟩

/-- A call that has begun, from a clean heap. -/
theorem Begun.going {B : Heap} {nometa : Bool} (hb : Begun B w nometa H) (hc : B.Closed)
    (hc₀ : h₀.Closed) (hcl : Clean h₀ B) (hlt : w < h₀.size) :
    Going h₀ w B.size (startMeta h₀ w nometa) H := by
  have hltB : w < B.size := Nat.lt_of_lt_of_le hlt hcl.size
  have hg : Growing h₀ False w B (startMeta h₀ w nometa) [] H := hb.growing hc₀ hlt hcl
  have hself : Sealed (· = B.size) H := hb.sealed (fun x hx => by rw [hx]; exact hg.size)
    (fun x k y hx _ hy => Nat.ne_of_lt (hc.field x k y hx hy))
    (fun x m hx hm => Nat.ne_of_lt (hc.metatable x m hx hm))
    fun m hm => Nat.ne_of_lt (Heap.getmetatable_lt hc hltB hm)
  exact ⟨hg.clean, hb.closed hc hltB, hself, hg.size, hcl.size, hlt, hg.meta_⟩

/-- What is run in a call that returns, from a clean heap: the loop over the keys of the table. -/
theorem tableCopy_ok {B : Heap} {nometa : Bool} {q : Nat × Heap} {fuel : Nat}
    (horder : ∀ h t, (order h t).Perm (h.table t).keys) (hc₀ : h₀.Closed) (hcl : Clean h₀ B)
    (hlt : w < h₀.size) (h : tableCopy order Heap.raises (fuel + 1) w nometa B = .ok q) :
    ∃ (H : Heap) (keys : List Value),
      Begun B w nometa H ∧ h₀.metafield w "__pairs" = .nil ∧ keys.Nodup ∧
      (∀ k, k ∈ keys ↔ h₀.get w k ≠ .nil) ∧ q.1 = B.size ∧
      keys.foldlM (tableCopyField Heap.raises (innerCopy order Heap.raises fuel) w B.size) H =
        .ok q.2 := by
  have hltB : w < B.size := Nat.lt_of_lt_of_le hlt hcl.size
  obtain ⟨hbegun, -⟩ := beginCopy_eq hltB fun m => hcl.metatable_lt hc₀ hlt
  rw [tableCopy_succ, bind_eq_ok] at h
  obtain ⟨H, hH, h⟩ := h
  rw [bind_eq_ok] at h
  obtain ⟨keys, hkeys, h⟩ := h
  rw [bind_eq_ok] at h
  obtain ⟨H', hloop, h⟩ := h
  cases h
  have hb := hbegun H hH
  have hg : Growing h₀ False w B (startMeta h₀ w nometa) [] H := hb.growing hc₀ hlt hcl
  have hclH := hg.clean
  rw [pairs_clean hc₀ hlt hclH] at hkeys
  split at hkeys
  · rename_i hpairs
    cases hkeys
    have hperm := horder H w
    rw [hclH.orig w hlt] at hperm
    exact ⟨H, _, hb, hpairs, hperm.nodup_iff.mpr (h₀.table w).fields.keys_nodup,
      fun k => hperm.mem_iff.trans Table.mem_keys, rfl, hloop⟩
  · cases hkeys

/-- Where the loop is not diverted, all tables in the fields are as they have to be, or the result
is bad. -/
theorem children_judged (bare : Prop) {B : Heap} {nometa : Bool} {keys : List Value} {fuel : Nat}
    (hc₀ : h₀.Closed) (hjudge : Judges h₀ bare (innerCopy order Heap.raises fuel))
    (hcl : Clean h₀ B) (hc : B.Closed) (hlt : w < h₀.size) (hb : Begun B w nometa H)
    (hself : nometa = false → Writable h₀ w) (hnodup : keys.Nodup)
    (hmem : ∀ k, k ∈ keys ↔ h₀.get w k ≠ .nil)
    (h : keys.foldlM (tableCopyField Heap.raises (innerCopy order Heap.raises fuel) w B.size) H =
      .ok H') :
    (Clean h₀ H' ∧ ∀ x, TransGen (Child h₀) w x → Ok h₀ bare x) ∨
      Bad h₀ bare B.size w B.size H' := by
  have hraw : keys ≠ [] → RawMeta h₀ (startMeta h₀ w nometa) := by
    intro hne
    obtain ⟨k, hk⟩ := List.exists_mem_of_ne_nil keys hne
    exact startMeta_raw hc₀ hlt hself ((hmem k).mp hk)
  rcases (hb.going hc hc₀ hcl hlt).loop hc₀ (tableCopy_frames fuel false) hjudge hraw hnodup
    (fun k hk => (hmem k).mp hk) (fun k _ => hb.empty k) (Nat.le_refl _)
    (Nat.lt_of_lt_of_le hlt hcl.size) h with ⟨hg, hok⟩ | ⟨k, hsp⟩
  · refine .inl ⟨hg.clean, fun x hx => ?_⟩
    obtain ⟨u, ⟨k, hk⟩, hux⟩ := TransGen.head'_iff.mp hx
    exact hok k ((hmem k).mpr (by rw [hk]; exact Value.noConfusion)) u hk x hux
  · exact .inr hsp.bad

/-- A call that returns has found all tables as they have to be, or its result is bad. -/
theorem tableCopy_judged (bare : Prop) (horder : ∀ h t, (order h t).Perm (h.table t).keys)
    (hc₀ : h₀.Closed) (fuel : Nat) : Judges h₀ bare (innerCopy order Heap.raises fuel) := by
  induction fuel with
  | zero =>
    intro u H p _ _ _ h
    cases h
  | succ fuel ih =>
    intro w B q hcl hc hlt h
    have hltB : w < B.size := Nat.lt_of_lt_of_le hlt hcl.size
    have hne : w ≠ B.size := Nat.ne_of_lt hltB
    obtain ⟨H, keys, hb, hpairs, hnodup, hmem, hq, hloop⟩ := tableCopy_ok horder hc₀ hcl hlt h
    have hg := hb.going hc hc₀ hcl hlt
    have hframes : Frames (innerCopy order Heap.raises fuel) := tableCopy_frames fuel false
    have hltH : w < H.size := Nat.lt_of_lt_of_le hlt hg.clean.size
    have hf := loop_filled hframes hg.closed hg.sealed hg.lt hltH hne hloop
    have hsettable : Settable h₀ w := by
      rw [Settable, ← hcl.getmetatable hc₀ hlt]
      exact hb.settable rfl
    have hstart : h₀.getmetatable w ≠ .nil → ∃ m, h₀.getmetatable w = .table m ∧
        startMeta h₀ w false = some m := by
      intro hn
      obtain ⟨m, hm⟩ := Option.isSome_iff_exists.mp (hsettable.resolve_left hn)
      have hm : startMeta h₀ w false = some m := hm
      exact ⟨m, (getmetatable_of_startMeta hm).2, hm⟩
    rw [hq]
    by_cases hbare : bare → h₀.metatable w = none
    · by_cases hw : Writable h₀ w
      · have hjudged := children_judged bare hc₀ ih hcl hc hlt hb (fun _ => hw) hnodup hmem
          hloop
        rcases hjudged with ⟨hclean, hok⟩ | hbad
        · refine .inl ⟨hclean, fun x hx => ?_⟩
          rcases reflTransGen_iff_eq_or_transGen.mp hx with rfl | hx
          · exact ⟨hw, hbare⟩
          · exact hok x hx
        · exact .inr hbad
      · -- the first field is diverted
        have hraw : ¬((∀ k, h₀.get w k = .nil) ∨
            ∀ m, h₀.getmetatable w = .table m → h₀.get m (.str "__newindex") = .nil) :=
          fun hr => hw ⟨⟨hpairs, hsettable⟩, hr⟩
        push Not at hraw
        obtain ⟨⟨k, hk⟩, m, hm, hi⟩ := hraw
        obtain ⟨m', hm', hstart⟩ := hstart (by rw [hm]; exact Value.noConfusion)
        cases hm.symm.trans hm'
        have hmlt := Heap.getmetatable_lt hc₀ hlt hm
        rw [hstart] at hg
        have hkeys : keys ≠ [] := List.ne_nil_of_mem ((hmem k).mpr hk)
        obtain ⟨k₁, ks, rfl⟩ := List.exists_cons_of_ne_nil hkeys
        rw [List.foldlM_cons, bind_eq_ok] at hloop
        obtain ⟨H₁, h₁, hloop⟩ := hloop
        have hsp : Spoilt h₀ bare B.size w B.size k₁ H₁ := hg.diverted hframes
          (by rw [Heap.get_congr (hg.clean.orig m hmlt)]; exact hi) (hb.empty k₁)
          ((hmem k₁).mp List.mem_cons_self) (Nat.le_refl _) h₁
        have hf₁ := turn_filled hframes hg.closed hg.sealed hg.lt hltH hne h₁
        exact .inr (hsp.loop hframes hf₁.closed (Nat.lt_of_lt_of_le hg.lt hf₁.size)
          (Nat.lt_of_lt_of_le hltH hf₁.size) hltB (List.nodup_cons.mp hnodup).1 hloop).bad
    · -- the result has a metatable
      push Not at hbare
      obtain ⟨hbare, hn⟩ := hbare
      obtain ⟨m, -, hstart⟩ := hstart fun e => hn (Heap.getmetatable_eq_nil e)
      refine .inr ⟨(· = B.size), rfl, fun x hx => hx ▸ Nat.le_refl _, hf.sealed,
        fun H'' hsame hfine => ?_⟩
      have hnone : H''.metatable B.size = none := hfine.root hbare
      rw [Heap.metatable_congr (hsame _ rfl), hf.meta_ rfl, hg.meta_, hstart] at hnone
      cases hnone

end

end SkynetHotfix.Luaext
