import Mathlib.Data.Nat.Bitwise
import SkynetHotfix.Skynet.Handle

/-!
# Handles and names are found

The slots hold each handle at its hash, also after they have doubled (`Slots`, `grow_spec`), and the
names are sorted, so that the binary search meets the one there is (`search_spec`). So the storage
does what a set of handles and a map of names do (`refines`).
-/

namespace SkynetHotfix.Skynet

open Function (update)
open BinarySearch

namespace HandleStorage

variable {s s' : HandleStorage} {handle i j n k : Nat} {x : List UInt8}

/-- Each slot has a handle of this harbor, at its hash. -/
structure Slots (s : HandleStorage) : Prop where
  size : ∃ k ≤ 24, s.slot_size = 2 ^ k
  harbor : ∃ c, s.harbor = c <<< 24
  slot : ∀ i handle, s.slot i = some handle → handle % s.slot_size = i ∧
    ∃ low ≤ HANDLE_MASK, handle = low ||| s.harbor

theorem Slots.size_pos (h : s.Slots) : 0 < s.slot_size := by
  obtain ⟨k, -, hk⟩ := h.size
  rw [hk]
  exact Nat.two_pow_pos k

theorem Slots.hash_eq (h : s.Slots) (handle : Nat) : s.hash handle = handle % s.slot_size := by
  obtain ⟨k, -, hk⟩ := h.size
  rw [hash, hk, Nat.and_two_pow_sub_one_eq_mod]

theorem Slots.grab_iff (h : s.Slots) :
    s.skynet_handle_grab handle = true ↔ s.slot (handle % s.slot_size) = some handle := by
  rw [skynet_handle_grab, h.hash_eq, decide_eq_true_iff]

/-- The harbor is above the bits that are hashed. -/
theorem Slots.or_mod (h : s.Slots) {low : Nat} (hlow : low ≤ HANDLE_MASK) :
    (low ||| s.harbor) % s.slot_size = low % s.slot_size := by
  obtain ⟨k, hk, hsize⟩ := h.size
  obtain ⟨c, hc⟩ := h.harbor
  have hlt : low < 2 ^ 24 := Nat.lt_of_le_of_lt hlow (by decide)
  rw [hc, hsize, Nat.or_comm, ← Nat.shiftLeft_add_eq_or_of_lt hlt,
    Nat.shiftLeft_eq, show c * 2 ^ 24 = 2 ^ k * (c * 2 ^ (24 - k)) by
      rw [Nat.mul_left_comm, ← Nat.pow_add, Nat.add_sub_cancel' hk],
    Nat.mul_add_mod]

theorem mask_eq (x : Nat) : x &&& HANDLE_MASK = x % 2 ^ 24 :=
  Nat.and_two_pow_sub_one_eq_mod x 24

theorem freeHandle_some (h : s.freeHandle n i = some handle) :
    handle ≤ HANDLE_MASK ∧ s.slot (s.hash handle) = none := by
  induction n generalizing i with
  | zero => cases h
  | succ n ih =>
    rw [freeHandle] at h
    split at h
    · next hfree =>
      obtain rfl := Option.some.inj h
      exact ⟨Nat.and_le_right, hfree⟩
    · exact ih h

theorem freeHandle_none (h : s.freeHandle n i = none) (hj : i ≤ j) (hn : j < i + n) :
    s.slot (s.hash ((j + s.handle_index) &&& HANDLE_MASK)) ≠ none := by
  induction n generalizing i with
  | zero => omega
  | succ n ih =>
    rw [freeHandle] at h
    split at h
    · cases h
    · next hfree =>
      rcases Nat.lt_or_eq_of_le hj with hj | rfl
      · exact ih h hj (by omega)
      · exact hfree

/-- As many handles as there are slots come to every slot. -/
theorem Slots.full (h : s.Slots) (hnone : s.freeHandle s.slot_size 0 = none)
    (hi : i < s.slot_size) : s.slot i ≠ none := by
  obtain ⟨k, hk, hsize⟩ := h.size
  have hpos := h.size_pos
  have hmod := Nat.mod_lt s.handle_index hpos
  have hj := freeHandle_none hnone (Nat.zero_le
    ((i + (s.slot_size - s.handle_index % s.slot_size)) % s.slot_size))
    (by rw [Nat.zero_add]; exact Nat.mod_lt _ hpos)
  rw [h.hash_eq, mask_eq, Nat.mod_mod_of_dvd _ (hsize ▸ Nat.pow_dvd_pow 2 hk), Nat.mod_add_mod,
    Nat.add_assoc] at hj
  have hround : s.slot_size - s.handle_index % s.slot_size + s.handle_index =
      s.slot_size * (1 + s.handle_index / s.slot_size) := by
    have := Nat.div_add_mod s.handle_index s.slot_size
    rw [Nat.mul_add, Nat.mul_one]
    omega
  rwa [hround, Nat.add_mul_mod_self_left, Nat.mod_eq_of_lt hi] at hj

/-- The doubled slots, with the handles of the slots below `i`. -/
def doubled (s : HandleStorage) (i j : Nat) : Option Nat :=
  if j % s.slot_size < i then (s.slot (j % s.slot_size)).filter (· % (s.slot_size * 2) = j)
  else none

theorem Slots.rehash_eq (h : s.Slots) (hfull : ∀ i < s.slot_size, s.slot i ≠ none)
    (hn : i + n = s.slot_size) : s.rehash n i (s.doubled i) = some (s.doubled s.slot_size) := by
  obtain ⟨k, -, hsize⟩ := h.size
  induction n generalizing i with
  | zero =>
    obtain rfl : i = s.slot_size := hn
    rfl
  | succ n ih =>
    obtain ⟨handle, hslot⟩ := Option.ne_none_iff_exists'.mp (hfull i (by omega))
    have hmod := (h.slot i handle hslot).1
    have hhash : handle &&& (s.slot_size * 2 - 1) = handle % (s.slot_size * 2) := by
      rw [hsize, ← Nat.pow_succ, Nat.and_two_pow_sub_one_eq_mod]
    have hself : handle % (s.slot_size * 2) % s.slot_size = i := by
      rw [Nat.mod_mul_right_mod, hmod]
    have hempty : s.doubled i (handle % (s.slot_size * 2)) = none := by
      rw [doubled, hself, if_neg (Nat.lt_irrefl i)]
    have hnext : update (s.doubled i) (handle % (s.slot_size * 2)) (some handle) =
        s.doubled (i + 1) := by
      funext j
      by_cases hj : j = handle % (s.slot_size * 2)
      · subst hj
        rw [Function.update_self, doubled, hself, if_pos (Nat.lt_succ_self i), hslot,
          Option.filter_some, decide_eq_true rfl, if_pos rfl]
      · rw [Function.update_of_ne hj, doubled, doubled]
        by_cases hji : j % s.slot_size = i
        · rw [hji, if_neg (Nat.lt_irrefl i), if_pos (Nat.lt_succ_self i), hslot,
            Option.filter_some, decide_eq_false (Ne.symm hj), if_neg (by decide)]
        · exact if_congr (by omega) rfl rfl
    rw [rehash, hslot]
    simp only [Option.bind_eq_bind, Option.bind_some, hhash, hempty, guard, if_true]
    rw [hnext]
    exact ih (by omega)

/-- Slots that are all taken double, which keeps what is found and leaves some free. -/
theorem Slots.grow_spec (h : s.Slots) (hfull : ∀ i < s.slot_size, s.slot i ≠ none)
    (hsmall : s.slot_size * 2 - 1 ≤ HANDLE_MASK) :
    ∃ s', s.grow = some s' ∧ s'.Slots ∧ s'.freeHandle s'.slot_size 0 ≠ none ∧
      (∀ handle, s'.skynet_handle_grab handle = s.skynet_handle_grab handle) ∧
      s'.harbor = s.harbor ∧ s'.name = s.name ∧ s'.name_count = s.name_count ∧
      s'.name_cap = s.name_cap := by
  have hpos := h.size_pos
  obtain ⟨k, hk, hsize⟩ := h.size
  have hstart : s.doubled 0 = fun _ => none := by
    funext j
    rw [doubled, if_neg (Nat.not_lt_zero _)]
  have hrehash := h.rehash_eq hfull (Nat.zero_add _)
  rw [hstart] at hrehash
  have hslot (j : Nat) : s.doubled s.slot_size j =
      (s.slot (j % s.slot_size)).filter (· % (s.slot_size * 2) = j) :=
    if_pos (Nat.mod_lt _ hpos)
  have hslots : Slots { s with slot := s.doubled s.slot_size, slot_size := s.slot_size * 2 } := by
    refine ⟨⟨k + 1, ?_, ?_⟩, h.harbor, fun i handle hi => ?_⟩
    · have : s.slot_size * 2 ≤ 2 ^ 24 := by
        rw [show HANDLE_MASK = 2 ^ 24 - 1 by decide] at hsmall
        omega
      rw [hsize, ← Nat.pow_succ] at this
      exact (Nat.pow_le_pow_iff_right (by decide)).mp this
    · rw [hsize, Nat.pow_succ]
    · change s.doubled s.slot_size i = some handle at hi
      rw [hslot, Option.filter_eq_some_iff] at hi
      exact ⟨by simpa using hi.2, (h.slot _ handle hi.1).2⟩
  refine ⟨_, by simp [grow, guard, hsmall, hrehash], hslots, fun hnone => ?_, fun handle => ?_,
    rfl, rfl, rfl, rfl⟩
  · -- the two slots that slot 0 becomes cannot both be taken
    have hzero := hslots.full hnone (i := 0) (Nat.mul_pos hpos (by decide))
    have hhalf := hslots.full hnone (i := s.slot_size) (show _ < s.slot_size * 2 by omega)
    obtain ⟨a, ha⟩ := Option.ne_none_iff_exists'.mp hzero
    obtain ⟨b, hb⟩ := Option.ne_none_iff_exists'.mp hhalf
    change s.doubled s.slot_size 0 = some a at ha
    change s.doubled s.slot_size s.slot_size = some b at hb
    rw [hslot, Nat.zero_mod, Option.filter_eq_some_iff] at ha
    rw [hslot, Nat.mod_self, Option.filter_eq_some_iff] at hb
    obtain rfl := Option.some.inj (ha.1.symm.trans hb.1)
    have h₁ : a % (s.slot_size * 2) = 0 := by simpa using ha.2
    have h₂ : a % (s.slot_size * 2) = s.slot_size := by simpa using hb.2
    omega
  · rw [Bool.eq_iff_iff, hslots.grab_iff, h.grab_iff]
    show s.doubled s.slot_size (handle % (s.slot_size * 2)) = _ ↔ _
    rw [hslot, Nat.mod_mul_right_mod, Option.filter_eq_some_iff]
    simp

/-- What is not about slots. -/
def SameNames (s s' : HandleStorage) : Prop :=
  s'.name = s.name ∧ s'.name_count = s.name_count ∧ s'.name_cap = s.name_cap

/-- A handle whose slot is free is given. -/
theorem Slots.take (h : s.Slots) (hfree : s.freeHandle s.slot_size 0 = some handle) :
    ∃ s', register (n + 1) s = some (s', handle ||| s.harbor) ∧ s'.Slots ∧ SameNames s s' ∧
      s.skynet_handle_grab (handle ||| s.harbor) = false ∧
      ∀ other, s'.skynet_handle_grab other = true ↔
        other = handle ||| s.harbor ∨ s.skynet_handle_grab other = true := by
  obtain ⟨hmask, hnone⟩ := freeHandle_some hfree
  have hmod := h.or_mod hmask
  rw [h.hash_eq] at hnone
  have hslots : Slots { s with
      slot := update s.slot (s.hash handle) (some (handle ||| s.harbor))
      handle_index := handle + 1 } := by
    refine ⟨h.size, h.harbor, fun i other hi => ?_⟩
    change update s.slot (s.hash handle) (some (handle ||| s.harbor)) i = some other at hi
    rw [h.hash_eq] at hi
    by_cases hih : i = handle % s.slot_size
    · rw [hih, Function.update_self] at hi
      obtain rfl := Option.some.inj hi
      exact ⟨hmod.trans hih.symm, handle, hmask, rfl⟩
    · rw [Function.update_of_ne hih] at hi
      exact h.slot i other hi
  refine ⟨_, by rw [register, hfree], hslots, ⟨rfl, rfl, rfl⟩, ?_, fun other => ?_⟩
  · rw [Bool.eq_false_iff]
    intro hgrab
    rw [h.grab_iff, hmod, hnone] at hgrab
    cases hgrab
  · rw [hslots.grab_iff, h.grab_iff]
    show update s.slot (s.hash handle) (some (handle ||| s.harbor)) (other % s.slot_size) =
      some other ↔ _
    rw [h.hash_eq]
    by_cases hother : other % s.slot_size = handle % s.slot_size
    · rw [hother, Function.update_self, hnone, Option.some.injEq]
      simp [eq_comm]
    · rw [Function.update_of_ne hother]
      refine ⟨.inr, ?_⟩
      rintro (rfl | hgrab)
      · exact absurd hmod hother
      · exact hgrab

/-- As long as a handle is left, a new one is got. -/
theorem Slots.register_spec (h : s.Slots) (hroom : s.Room .register) :
    ∃ s' handle, s.skynet_handle_register = some (s', handle) ∧ s'.Slots ∧ SameNames s s' ∧
      s.skynet_handle_grab handle = false ∧
      ∀ other, s'.skynet_handle_grab other = true ↔
        other = handle ∨ s.skynet_handle_grab other = true := by
  cases hfree : s.freeHandle s.slot_size 0 with
  | some handle =>
    obtain ⟨s', hreg, hs'⟩ := h.take (n := 1) hfree
    exact ⟨s', _, hreg, hs'⟩
  | none =>
    have hfull := fun i => h.full (i := i) hfree
    obtain ⟨k, hk, hsize⟩ := h.size
    have hsmall : s.slot_size * 2 - 1 ≤ HANDLE_MASK := by
      rcases Nat.lt_or_eq_of_le hk with hk | rfl
      · have hpow := Nat.pow_le_pow_right (show 0 < 2 by decide) (Nat.succ_le_of_lt hk)
        rw [Nat.pow_succ, ← hsize] at hpow
        exact Nat.sub_le_sub_right hpow 1
      · -- with all slots there can be, each handle of the harbor is taken
        obtain ⟨low, hlow, hgrab⟩ := hroom
        obtain ⟨other, hother⟩ := Option.ne_none_iff_exists'.mp
          (hfull (low % s.slot_size) (Nat.mod_lt _ h.size_pos))
        obtain ⟨hmod, low', hlow', rfl⟩ := h.slot _ other hother
        have hlt : ∀ a ≤ HANDLE_MASK, a % s.slot_size = a := fun a ha => by
          rw [hsize]
          exact Nat.mod_eq_of_lt (Nat.lt_of_le_of_lt ha (by decide))
        rw [h.or_mod hlow', hlt low' hlow', hlt low hlow] at hmod
        subst hmod
        rw [(h.grab_iff).mpr (by rwa [h.or_mod hlow])] at hgrab
        cases hgrab
    obtain ⟨s₁, hgrow, hs₁, hfree₁, hgrab, hharbor, hname, hcount, hcap⟩ := h.grow_spec hfull hsmall
    obtain ⟨handle, hfree₁⟩ := Option.ne_none_iff_exists'.mp hfree₁
    obtain ⟨s', hreg, hs', hnames, hnew, hiff⟩ := hs₁.take (n := 0) hfree₁
    refine ⟨s', handle ||| s₁.harbor, ?_, hs', ?_, ?_, fun other => ?_⟩
    · rw [skynet_handle_register, register, hfree]
      simpa [hgrow] using hreg
    · exact ⟨hnames.1.trans hname, hnames.2.1.trans hcount, hnames.2.2.trans hcap⟩
    · rw [← hgrab, hnew]
    · rw [hiff, hgrab]

/-- A handle that is there goes. -/
theorem Slots.retire_spec (h : s.Slots) (handle : Nat) :
    (s.skynet_handle_retire handle).1.Slots ∧
      (s.skynet_handle_retire handle).2 = s.skynet_handle_grab handle ∧
      ∀ other, (s.skynet_handle_retire handle).1.skynet_handle_grab other = true ↔
        other ≠ handle ∧ s.skynet_handle_grab other = true := by
  rw [skynet_handle_retire]
  split
  · next hslot =>
    rw [h.hash_eq] at hslot
    have hgrab := h.grab_iff.mpr hslot
    dsimp only
    generalize retireNames handle s.name_count 0 0 s.name = names
    have hslots : Slots { s with
        slot := update s.slot (s.hash handle) none
        name_count := names.1
        name := names.2 } := by
      refine ⟨h.size, h.harbor, fun i other hi => ?_⟩
      change update s.slot (s.hash handle) none i = some other at hi
      by_cases hih : i = s.hash handle
      · rw [hih, Function.update_self] at hi
        cases hi
      · rw [Function.update_of_ne hih] at hi
        exact h.slot i other hi
    refine ⟨hslots, hgrab.symm, fun other => ?_⟩
    rw [hslots.grab_iff, h.grab_iff]
    show update s.slot (s.hash handle) none (other % s.slot_size) = some other ↔ _
    rw [h.hash_eq]
    by_cases hother : other % s.slot_size = handle % s.slot_size
    · rw [hother, Function.update_self, hslot, Option.some.injEq]
      constructor
      · intro hnone
        cases hnone
      · rintro ⟨hne, rfl⟩
        exact absurd rfl hne
    · rw [Function.update_of_ne hother]
      refine ⟨fun hfound => ⟨?_, hfound⟩, And.right⟩
      rintro rfl
      exact hother rfl
  · next hslot =>
    have hgrab : s.skynet_handle_grab handle = false := decide_eq_false hslot
    refine ⟨h, hgrab.symm, fun other => ⟨fun hfound => ⟨?_, hfound⟩, And.right⟩⟩
    rintro rfl
    rw [hgrab] at hfound
    cases hfound

/-! ### Names -/

/-- The names that there are, in order. -/
def names (s : HandleStorage) : List HandleName := (List.range s.name_count).map s.name

def Sorted (l : List HandleName) : Prop := l.Pairwise fun a b => compare a.name b.name = .lt

theorem names_congr (h : SameNames s s') : s'.names = s.names := by
  rw [names, names, h.1, h.2.1]

@[simp] theorem length_names : s.names.length = s.name_count := by
  simp [names]

theorem name_mem (h : i < s.name_count) : s.name i ∈ s.names :=
  List.mem_map_of_mem (List.mem_range.mpr h)

theorem Sorted.lt (h : Sorted s.names) (hij : i < j) (hj : j < s.name_count) :
    compare (s.name i).name (s.name j).name = .lt := by
  have := List.pairwise_iff_getElem.mp h i j (by simp; omega) (by simpa using hj) hij
  simpa [names] using this

theorem Sorted.ordered (h : Sorted s.names) (x : List UInt8) :
    Ordered (s.strcmp x) s.name_count where
  below i j hij hj hlt := Std.TransCmp.lt_trans (h.lt hij hj) hlt
  above i j hij hj hgt := by
    have hlt := Std.TransCmp.lt_trans (Std.OrientedCmp.lt_of_gt hgt) (h.lt hij hj)
    exact Std.OrientedCmp.gt_of_lt hlt

/-- The search meets the name, or finds its place between those below and those above. -/
theorem Sorted.search_spec (h : Sorted s.names) (x : List UInt8) :
    (∃ mid, search (s.strcmp x) s.name_count 0 s.name_count = .inl mid ∧ mid < s.name_count ∧
      (s.name mid).name = x) ∨
    ∃ before, search (s.strcmp x) s.name_count 0 s.name_count = .inr before ∧
      before ≤ s.name_count ∧ (∀ i < before, compare (s.name i).name x = .lt) ∧
      ∀ i, before ≤ i → i < s.name_count → compare x (s.name i).name = .lt := by
  cases hs : search (s.strcmp x) s.name_count 0 s.name_count with
  | inl mid =>
    obtain ⟨hmid, heq⟩ := search_found (Nat.le_refl _) hs
    exact .inl ⟨mid, rfl, hmid, Std.LawfulEqCmp.eq_of_compare heq⟩
  | inr before =>
    obtain ⟨hle, hbelow, habove⟩ := search_missing (h.ordered x) (Nat.le_refl _) (Nat.zero_le _)
      (Nat.le_refl _) (fun i hi => absurd hi (Nat.not_lt_zero i))
      (fun i hi hc => absurd hi (Nat.not_le_of_lt hc)) hs
    exact .inr ⟨before, rfl, hle, hbelow, fun i hi hc => Std.OrientedCmp.lt_of_gt (habove i hi hc)⟩

theorem shift_apply (before : Nat) (name : Nat → HandleName) :
    shift before i name j = if before < j ∧ j ≤ i then name (j - 1) else name j := by
  induction i generalizing name with
  | zero =>
    rw [shift, if_neg (by omega)]
  | succ i ih =>
    rw [shift]
    split
    · rw [ih]
      by_cases hj : j = i + 1
      · subst hj
        rw [if_neg (by omega), if_pos (by omega), Function.update_self]
        rfl
      · by_cases hin : before < j ∧ j ≤ i
        · rw [if_pos hin, if_pos (by omega), Function.update_of_ne (by omega)]
        · rw [if_neg hin, if_neg (by omega), Function.update_of_ne hj]
    · rw [if_neg (by omega)]

/-- A name in its place, be there room in the array or not. -/
theorem insert_name_spec {before : Nat} (hle : before ≤ s.name_count)
    (hcap : s.name_count < s.name_cap ∨ s.name_cap * 2 ≤ MAX_SLOT_SIZE) (handle : Nat)
    (x : List UInt8) :
    ∃ s', s.insert_name_before x handle before = some s' ∧
      s'.names = s.names.take before ++ ⟨x, handle⟩ :: s.names.drop before ∧
      s'.slot = s.slot ∧ s'.slot_size = s.slot_size ∧ s'.harbor = s.harbor ∧
      s'.name_cap = if s.name_count ≥ s.name_cap then s.name_cap * 2 else s.name_cap := by
  have hlist (name : Nat → HandleName)
      (hname : ∀ i ≤ s.name_count, name i = if i < before then s.name i else
        if i = before then ⟨x, handle⟩ else s.name (i - 1)) :
      (List.range (s.name_count + 1)).map name =
        s.names.take before ++ ⟨x, handle⟩ :: s.names.drop before := by
    refine List.ext_getElem (by simp; omega) fun i hi hi' => ?_
    simp only [List.length_map, List.length_range] at hi
    rw [List.getElem_map, List.getElem_range, hname i (by omega), List.getElem_append]
    simp only [List.length_take, length_names, List.getElem_cons]
    split
    · rw [dif_pos (by omega)]
      simp [names]
    · rw [dif_neg (by omega)]
      split
      · rw [dif_pos (by omega)]
      · rw [dif_neg (by omega)]
        simp only [names, List.getElem_drop, List.getElem_map, List.getElem_range]
        congr 1
        omega
  by_cases hfull : s.name_count ≥ s.name_cap
  · refine ⟨{ s with
        name_cap := s.name_cap * 2
        name := update (fun i => if i < before then s.name i else s.name (i - 1)) before ⟨x, handle⟩
        name_count := s.name_count + 1 }, ?_, hlist _ fun i hi => ?_, rfl, rfl, rfl,
      (if_pos hfull).symm⟩
    · rw [insert_name_before, if_pos hfull, guard, if_pos (hcap.resolve_left (by omega))]
      rfl
    · by_cases hib : i = before
      · subst hib
        simp
      · dsimp only
        rw [Function.update_of_ne hib, if_neg hib]
  · refine ⟨{ s with
        name := update (shift before s.name_count s.name) before ⟨x, handle⟩
        name_count := s.name_count + 1 }, ?_, hlist _ fun i hi => ?_, rfl, rfl, rfl,
      (if_neg hfull).symm⟩
    · rw [insert_name_before, if_neg hfull]
    · by_cases hib : i = before
      · subst hib
        simp
      · dsimp only
        rw [Function.update_of_ne hib, if_neg hib, shift_apply]
        by_cases hlt : i < before
        · rw [if_pos hlt, if_neg (by omega)]
        · rw [if_neg hlt, if_pos (by omega)]

theorem retireNames_eq (name : Nat → HandleName) (hij : j ≤ i) :
    (List.range (retireNames handle n i j name).1).map (retireNames handle n i j name).2 =
      (List.range j).map name ++
        ((List.range n).map fun k => name (i + k)).filter (·.handle ≠ handle) := by
  induction n generalizing i j name with
  | zero => simp [retireNames]
  | succ n ih =>
    have hsucc : (List.range (n + 1)).map (fun k => name (i + k)) =
        name i :: (List.range n).map fun k => name (i + 1 + k) := by
      rw [List.range_succ_eq_map, List.map_cons, List.map_map]
      refine congrArg _ (List.map_congr_left fun k _ => ?_)
      show name (i + (k + 1)) = name (i + 1 + k)
      rw [show i + (k + 1) = i + 1 + k by omega]
    rw [retireNames, hsucc, List.filter_cons]
    by_cases hi : (name i).handle = handle
    · rw [if_pos hi, ih name (by omega)]
      simp [hi]
    · have hmoved (k : Nat) (hk : k < j ∨ i < k) :
          (if i ≠ j then update name j (name i) else name) k = name k := by
        split
        · exact Function.update_of_ne (by omega) _ _
        · rfl
      have hlast : (if i ≠ j then update name j (name i) else name) j = name i := by
        split
        · exact Function.update_self ..
        · next heq => rw [not_not.mp heq]
      rw [if_neg hi, ih _ (by omega), List.range_succ, List.map_append, List.map_singleton, hlast,
        List.map_congr_left fun k hk => hmoved k (.inl (List.mem_range.mp hk)),
        List.map_congr_left fun k hk => hmoved (i + 1 + k) (.inr (by omega))]
      simp [hi]

/-- The names of a handle that goes go too. -/
theorem names_retire (h : s.skynet_handle_grab handle = true) :
    (s.skynet_handle_retire handle).1.names = s.names.filter (·.handle ≠ handle) := by
  rw [skynet_handle_retire, if_pos (of_decide_eq_true h)]
  refine (retireNames_eq s.name (Nat.le_refl 0)).trans ?_
  simp [names]

theorem mem_names {entry : HandleName} :
    entry ∈ s.names ↔ ∃ i < s.name_count, s.name i = entry := by
  simp [names]

/-- The storage holds what the registry says. -/
structure Holds (s : HandleStorage) (a : Registry) : Prop where
  slots : s.Slots
  sorted : Sorted s.names
  cap : ∃ k ≤ 30, s.name_cap = 2 ^ k
  count : s.name_count ≤ s.name_cap
  registered : ∀ handle, handle ∈ a.registered ↔ s.skynet_handle_grab handle = true
  named : ∀ x handle, a.named x = some handle ↔ ⟨x, handle⟩ ∈ s.names

variable {a : Registry}

theorem init_holds (harbor : Nat) : (skynet_handle_init harbor).Holds .new where
  slots := ⟨⟨2, by decide, rfl⟩, ⟨_, rfl⟩, fun i handle h => by cases h⟩
  sorted := .nil
  cap := ⟨1, by decide, rfl⟩
  count := Nat.zero_le _
  registered handle := by
    refine ⟨False.elim, fun h => ?_⟩
    have hslot : (none : Option Nat) = some handle := of_decide_eq_true h
    cases hslot
  named x handle := by
    constructor
    · intro h
      cases h
    · intro h
      cases h

/-- A name that is not found is none of those there. -/
theorem Holds.named_eq_none (h : s.Holds a) {before : Nat}
    (hbelow : ∀ i < before, compare (s.name i).name x = .lt)
    (habove : ∀ i, before ≤ i → i < s.name_count → compare x (s.name i).name = .lt) :
    a.named x = none := by
  refine Option.eq_none_iff_forall_ne_some.mpr fun handle hnamed => ?_
  obtain ⟨i, hi, hname⟩ := mem_names.mp ((h.named x handle).mp hnamed)
  rcases Nat.lt_or_ge i before with hib | hib
  · have := hbelow i hib
    rw [hname, Std.ReflOrd.compare_self] at this
    cases this
  · have := habove i hib hi
    rw [hname, Std.ReflOrd.compare_self] at this
    cases this

theorem Holds.findname (h : s.Holds a) (x : List UInt8) :
    s.skynet_handle_findname x = (a.named x).getD 0 := by
  rw [skynet_handle_findname]
  obtain ⟨mid, hs, hmid, hname⟩ | ⟨before, hs, -, hbelow, habove⟩ := h.sorted.search_spec x
  · have hmem := name_mem hmid
    rw [show s.name mid = ⟨x, (s.name mid).handle⟩ by rw [← hname]] at hmem
    rw [hs, (h.named x _).mpr hmem]
    rfl
  · rw [hs, h.named_eq_none hbelow habove]
    rfl

/-- A new name keeps the names sorted, and is one more. -/
theorem Holds.namehandle (h : s.Holds a) (handle : Nat) (hroom : s.name_count < MAX_SLOT_SIZE)
    {before : Nat}
    (hle : before ≤ s.name_count) (hbelow : ∀ i < before, compare (s.name i).name x = .lt)
    (habove : ∀ i, before ≤ i → i < s.name_count → compare x (s.name i).name = .lt) :
    ∃ s', s.insert_name_before x handle before = some s' ∧
      s'.Holds { a with named := update a.named x (some handle) } := by
  obtain ⟨k, hk, hcapk⟩ := h.cap
  have hdouble : s.name_count ≥ s.name_cap → k < 30 := by
    intro hfull
    rcases Nat.lt_or_eq_of_le hk with hk | rfl
    · exact hk
    · rw [show MAX_SLOT_SIZE = 2 ^ 30 by decide] at hroom
      omega
  have hcap : s.name_count < s.name_cap ∨ s.name_cap * 2 ≤ MAX_SLOT_SIZE := by
    refine Nat.lt_or_ge s.name_count s.name_cap |>.imp_right fun hfull => ?_
    rw [hcapk, ← Nat.pow_succ]
    exact Nat.pow_le_pow_right (by decide) (Nat.succ_le_of_lt (hdouble hfull))
  obtain ⟨s', hs', hnames, hslot, hsize, hharbor, hcap'⟩ :=
    insert_name_spec hle hcap handle x
  have hgrab (other : Nat) : s'.skynet_handle_grab other = s.skynet_handle_grab other := by
    rw [skynet_handle_grab, skynet_handle_grab, hash, hash, hslot, hsize]
  have htake : ∀ b ∈ s.names.take before, compare b.name x = .lt := by
    intro b hb
    obtain ⟨i, hi, rfl⟩ := List.mem_iff_getElem.mp hb
    simp only [List.length_take, length_names] at hi
    simpa [names] using hbelow i (by omega)
  have hdrop : ∀ b ∈ s.names.drop before, compare x b.name = .lt := by
    intro b hb
    obtain ⟨i, hi, rfl⟩ := List.mem_iff_getElem.mp hb
    simp only [List.length_drop, length_names] at hi
    simpa [names] using habove (before + i) (by omega) (by omega)
  have hlength : s'.name_count = s.name_count + 1 := by
    rw [← length_names, hnames]
    simp
    omega
  refine ⟨s', hs', ⟨⟨?_, ?_, ?_⟩, ?_, ?_, ?_, ?_, ?_⟩⟩
  · exact hsize ▸ h.slots.size
  · exact hharbor ▸ h.slots.harbor
  · rw [hslot, hsize, hharbor]
    exact h.slots.slot
  · have hsorted := h.sorted
    rw [Sorted, ← List.take_append_drop before s.names, List.pairwise_append] at hsorted
    rw [hnames, Sorted, List.pairwise_append, List.pairwise_cons]
    refine ⟨hsorted.1, ⟨hdrop, hsorted.2.1⟩, fun b hb c hc => ?_⟩
    rcases List.mem_cons.mp hc with rfl | hc
    · exact htake b hb
    · exact hsorted.2.2 b hb c hc
  · rw [hcap']
    split
    · next hfull => exact ⟨k + 1, hdouble hfull, by rw [hcapk, Nat.pow_succ]⟩
    · exact ⟨k, hk, hcapk⟩
  · rw [hcap', hlength]
    have := h.count
    have := Nat.two_pow_pos k
    split <;> omega
  · intro other
    rw [hgrab]
    exact h.registered other
  · intro y other
    have hsplit : ∀ entry, entry ∈ s'.names ↔ entry = ⟨x, handle⟩ ∨ entry ∈ s.names := by
      intro entry
      rw [hnames, List.mem_append, List.mem_cons]
      conv_rhs => rw [← List.take_append_drop before s.names, List.mem_append]
      exact or_left_comm
    rw [hsplit]
    dsimp only
    by_cases hy : y = x
    · subst hy
      have hnone := h.named_eq_none hbelow habove
      rw [Function.update_self, ← h.named, hnone]
      simp [eq_comm]
    · rw [Function.update_of_ne hy, h.named]
      simp [hy]

theorem Holds.retire (h : s.Holds a) (hgrab : s.skynet_handle_grab handle = true) :
    (s.skynet_handle_retire handle).1.Holds
      ⟨a.registered \ {handle}, fun x => (a.named x).filter (· ≠ handle)⟩ := by
  obtain ⟨hslots, -, hiff⟩ := h.slots.retire_spec handle
  have hnames := names_retire hgrab
  have hcap : (s.skynet_handle_retire handle).1.name_cap = s.name_cap := by
    rw [skynet_handle_retire]
    split <;> rfl
  refine ⟨hslots, ?_, ?_, ?_, fun other => ?_, fun x other => ?_⟩
  · rw [hnames]
    exact h.sorted.filter _
  · rw [hcap]
    exact h.cap
  · rw [hcap, ← length_names, hnames]
    refine Nat.le_trans (List.length_filter_le _ _) ?_
    rw [length_names]
    exact h.count
  · rw [hiff, ← h.registered]
    exact and_comm
  · rw [hnames, List.mem_filter, ← h.named, Option.filter_eq_some_iff]

/-- Each function does what the registry allows. -/
theorem Holds.steps (h : s.Holds a) {op : HandleOp} (hroom : s.Room op) :
    Refine.Steps exec Registry.Step Holds s a op := by
  cases op with
  | register =>
    obtain ⟨s', handle, hreg, hslots, hnames, hnew, hiff⟩ := h.slots.register_spec hroom
    refine ⟨s', .handle handle, _, by rw [exec, hreg]; rfl, .register handle ?_, hslots, ?_, ?_, ?_,
      fun other => ?_, ?_⟩
    · rw [h.registered, hnew]
      decide
    · rw [names_congr hnames]
      exact h.sorted
    · rw [hnames.2.2]
      exact h.cap
    · rw [hnames.2.1, hnames.2.2]
      exact h.count
    · rw [hiff, ← h.registered]
      rfl
    · rw [names_congr hnames]
      exact h.named
  | retire handle =>
    have hfound := (h.slots.retire_spec handle).2.1
    cases hgrab : s.skynet_handle_grab handle with
    | true =>
      exact ⟨_, .found true, _, by rw [exec, hfound, hgrab],
        .retire ((h.registered handle).mpr hgrab), h.retire hgrab⟩
    | false =>
      have hsame : (s.skynet_handle_retire handle).1 = s := by
        rw [skynet_handle_retire, if_neg (of_decide_eq_false hgrab)]
      refine ⟨s, .found false, a, by rw [exec, hsame, hfound, hgrab], .unregistered fun hmem => ?_,
        h⟩
      rw [h.registered, hgrab] at hmem
      cases hmem
  | grab handle => exact ⟨s, _, a, rfl, .grab (h.registered handle).symm, h⟩
  | findname x =>
    exact ⟨s, .handle ((a.named x).getD 0), a, by rw [exec, h.findname], .findname, h⟩
  | namehandle handle x =>
    obtain ⟨mid, hs, hmid, hname⟩ | ⟨before, hs, hle, hbelow, habove⟩ := h.sorted.search_spec x
    · refine ⟨s, .name none, a, by rw [exec, skynet_handle_namehandle, hs]; rfl, .taken ?_, h⟩
      have hmem := name_mem hmid
      rw [show s.name mid = ⟨x, (s.name mid).handle⟩ by rw [← hname]] at hmem
      rw [(h.named x _).mpr hmem]
      simp
    · obtain ⟨s', hs', hholds⟩ := h.namehandle handle hroom hle hbelow habove
      exact ⟨s', .name (some x), _, by rw [exec, skynet_handle_namehandle, hs]; simp [hs'],
        .namehandle (h.named_eq_none hbelow habove), hholds⟩

/-- In every run, with slots and names that grow as need be, no assertion fails, and the results are
those of a set of handles and a map of names. -/
theorem storage_refines {harbor : Nat} {trace : List (HandleOp × HandleResult)}
    (hr : Refine.Run exec Room (skynet_handle_init harbor) trace s) :
    (∃ a, Refine.Allows Registry.Step .new trace a) ∧
      ∀ op, s.Room op → ∃ r, s.exec op = some r := by
  obtain ⟨a, hallows, h⟩ := hr.refines (init_holds harbor) fun s a op h hroom => h.steps hroom
  refine ⟨⟨a, hallows⟩, fun op hroom => ?_⟩
  obtain ⟨s', r, a', hexec, -, -⟩ := h.steps hroom
  exact ⟨_, hexec⟩

/-- A service is registered, named and retired; its name is gone then. -/
theorem storage_refines_sample :
    ∃ a, Refine.Allows Registry.Step .new [(.register, .handle 1),
      (.namehandle 1 [97], .name (some [97])), (.findname [97], .handle 1),
      (.retire 1, .found true), (.findname [97], .handle 0)] a := by
  have h₀ : Refine.Run exec Room (skynet_handle_init 0) [] (skynet_handle_init 0) := .nil
  have hroom : Room (skynet_handle_init 0) .register := ⟨0, by decide, by decide⟩
  have h₁ := h₀.step (r := .handle 1) hroom rfl
  have h₂ := h₁.step (e := HandleOp.namehandle 1 [97]) (show 0 < MAX_SLOT_SIZE by decide) rfl
  have h₃ := h₂.step (e := HandleOp.findname [97]) trivial rfl
  have h₄ := h₃.step (e := HandleOp.retire 1) trivial rfl
  have h₅ := h₄.step (e := HandleOp.findname [97]) trivial rfl
  exact (storage_refines h₅).1

end HandleStorage

end SkynetHotfix.Skynet
