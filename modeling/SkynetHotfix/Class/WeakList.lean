import Mathlib.Data.List.Basic
import SkynetHotfix.Lib.Machine

/-!
# The weak lists of `module_list`

`Hotfix:addObject` of `Hotfix.lua` on the tables as they are: lists with weak values, from which a
collection takes the entries of dead objects at any time, also while the loop of `addObject` goes
through them, and in which `table.insert` takes the place behind any border.

A place behind a border is free, so that no entry is overwritten, and the loop meets each entry
that stays (`at_insert`). But it compares by `==`, which asks `__eq`: an object that is equal to
another in the list is not added (`equal_object_missing`, `listed_once`).
-/

namespace SkynetHotfix.Class.Weak

open Function (update)

variable {Obj : Type}

/-- The hotfix, and with it which objects are dead, and what `addObject` was called for while it was
open. -/
structure World (Obj : Type) where
  opened : Bool
  module_list : String → Option (Nat → Option Obj)
  dead : Obj → Bool
  added : List (String × Obj)

/-- `Hotfix.new()` -/
def new : World Obj := ⟨true, fun _ => none, fun _ => false, []⟩

/-- What a collection does: the objects that are dead from now on, and the entries that it takes. -/
structure Collection (Obj : Type) where
  dies : Obj → Bool
  takes : String → Nat → Bool

/-- What a call of `addObject` meets: the metamethod `__eq`, a collection while the loop runs, the
entries that the loop comes to as long as it goes on, and the border that `#` gives. -/
structure Call (Obj : Type) where
  eq : Obj → Obj → Bool
  collection : Collection Obj
  seen : List Obj
  border : Nat

namespace World

/-- The entry of a list at a place. -/
def entry (w : World Obj) (module_name : String) (i : Nat) : Option Obj :=
  (w.module_list module_name).bind fun list => list i

def collect (w : World Obj) (c : Collection Obj) : World Obj :=
  { w with
    module_list := fun module_name => (w.module_list module_name).map fun list i =>
      if c.takes module_name i then none else list i
    dead := fun obj => w.dead obj || c.dies obj }

/-- A module without a list gets an empty one, with `__mode = "v"`. -/
def withList (w : World Obj) (module_name : String) : World Obj :=
  match w.module_list module_name with
  | some _ => w
  | none => { w with module_list := update w.module_list module_name (some fun _ => none) }

/-- `table_insert(self.module_list[module_name], object)` -/
def insert (w : World Obj) (module_name : String) (border : Nat) (object : Obj) : World Obj :=
  let list := (w.module_list module_name).map fun list => update list (border + 1) (some object)
  { w with module_list := update w.module_list module_name list }

/-- `obj == object` -/
def equals [DecidableEq Obj] (c : Call Obj) (obj object : Obj) : Bool :=
  obj = object || c.eq obj object

/-- `Hotfix:addObject(module_name, object)` -/
def addObject [DecidableEq Obj] (w : World Obj) (module_name : Option String)
    (object : Option Obj) (c : Call Obj) : World Obj :=
  if !w.opened then w
  else
    match module_name, object with
    | some module_name, some object =>
      let w := (w.withList module_name).collect c.collection
      let need_add := !c.seen.any fun obj => equals c obj object
      let w := if need_add then w.insert module_name c.border object else w
      { w with added := w.added ++ [(module_name, object)] }
    | _, _ => w

end World

/-- What happens to the hotfix. -/
inductive Op (Obj : Type)
  | start
  | close
  | collect (c : Collection Obj)
  | addObject (module_name : Option String) (object : Option Obj) (c : Call Obj)

def World.exec [DecidableEq Obj] (w : World Obj) : Op Obj → World Obj
  | .start => { w with opened := true }
  | .close => { w with opened := false }
  | .collect c => w.collect c
  | .addObject module_name object c => w.addObject module_name object c

/-- A collection takes entries of dead objects only. -/
def World.Takes (w : World Obj) (c : Collection Obj) : Prop :=
  ∀ m i obj, w.entry m i = some obj → c.takes m i → w.dead obj ∨ c.dies obj

/-- A border of a list: it ends there, and is not at its start unless it begins with a hole. -/
def World.Border (w : World Obj) (m : String) (b : Nat) : Prop :=
  (b = 0 ∨ (w.entry m b).isSome) ∧ w.entry m (b + 1) = none

/-- What can happen. -/
def World.Legal (w : World Obj) : Op Obj → Prop
  | .collect c => w.Takes c
  | .addObject (some m) (some object) c =>
    let w' := (w.withList m).collect c.collection
    w.Takes c.collection ∧ w'.dead object = false ∧ w'.Border m c.border ∧
      (∀ obj ∈ c.seen, ∃ i, w.entry m i = some obj) ∧
      ∀ i obj, w'.entry m i = some obj → obj ∈ c.seen
  | _ => True

/-- No other object of the list is equal to the one that is added, unless that is in it already. -/
def World.Apart (w : World Obj) : Op Obj → Prop
  | .addObject (some m) (some object) c =>
    w.opened → (∃ i, w.entry m i = some object) ∨ ∀ obj ∈ c.seen, c.eq obj object = false
  | _ => True

/-- Each object that was added and is alive is in the list of its module, at one place. -/
def World.Once (w : World Obj) : Prop :=
  ∀ m object, (m, object) ∈ w.added → w.dead object = false → ∃! i, w.entry m i = some object

variable {w : World Obj} {m m' : String} {i b : Nat} {obj object : Obj} {c : Collection Obj}

/-! ## What the lists have -/

namespace World

theorem entry_withList (w : World Obj) (m m' : String) (i : Nat) :
    (w.withList m).entry m' i = w.entry m' i := by
  unfold withList
  cases hm : w.module_list m with
  | some _ => rfl
  | none =>
    by_cases e : m' = m
    · subst e
      simp [entry, hm]
    · simp [entry, e]

@[simp] theorem dead_withList (w : World Obj) (m : String) : (w.withList m).dead = w.dead := by
  unfold withList
  split <;> rfl

@[simp] theorem added_withList (w : World Obj) (m : String) :
    (w.withList m).added = w.added := by
  unfold withList
  split <;> rfl

theorem isSome_withList (w : World Obj) (m : String) : ((w.withList m).module_list m).isSome := by
  unfold withList
  cases hm : w.module_list m with
  | some list => simp [hm]
  | none => simp

theorem takes_withList (m : String) (hc : w.Takes c) : (w.withList m).Takes c := by
  intro m' i obj hi
  rw [entry_withList] at hi
  rw [dead_withList]
  exact hc m' i obj hi

theorem entry_collect (w : World Obj) (c : Collection Obj) (m : String) (i : Nat) :
    (w.collect c).entry m i = if c.takes m i then none else w.entry m i := by
  cases hm : w.module_list m <;> simp [entry, collect, hm]

/-- A collection leaves the objects that stay alive where they are. -/
theorem entry_collect_of_alive (hc : w.Takes c) (hobj : (w.collect c).dead obj = false)
    (hi : w.entry m i = some obj) : (w.collect c).entry m i = some obj := by
  rw [entry_collect, if_neg, hi]
  intro htakes
  have hdead : w.dead obj || c.dies obj := by
    rcases hc m i obj hi htakes with h | h
    · rw [h, Bool.true_or]
    · rw [h, Bool.or_true]
  exact absurd hdead (Bool.eq_false_iff.mp hobj)

theorem entry_of_collect (hi : (w.collect c).entry m i = some obj) : w.entry m i = some obj := by
  rw [entry_collect] at hi
  split at hi
  · cases hi
  · exact hi

theorem entry_insert (hm : (w.module_list m).isSome) (m' : String) (i : Nat) :
    (w.insert m b object).entry m' i =
      if m' = m ∧ i = b + 1 then some object else w.entry m' i := by
  obtain ⟨list, hlist⟩ := Option.isSome_iff_exists.mp hm
  by_cases e : m' = m
  · subst e
    by_cases hi : i = b + 1
    · subst hi
      simp [entry, insert, hlist]
    · simp [entry, insert, hlist, hi]
  · simp [entry, insert, e]

/-- Behind a border nothing is overwritten, and the object has one place more. -/
theorem at_insert (hm : (w.module_list m).isSome) (hb : w.Border m b) :
    (w.insert m b object).entry m' i = some obj ↔
      w.entry m' i = some obj ∨ m' = m ∧ i = b + 1 ∧ obj = object := by
  rw [entry_insert hm]
  split_ifs with h
  · obtain ⟨rfl, rfl⟩ := h
    rw [hb.2]
    simp [eq_comm]
  · constructor
    · exact .inl
    · rintro (h' | ⟨rfl, rfl, -⟩)
      · exact h'
      · exact absurd ⟨rfl, rfl⟩ h

/-! ## One step -/

/-- No object is at two places of a list, and what was added and is alive is at one. -/
structure Kept (w : World Obj) : Prop where
  unique : ∀ m i j obj, w.entry m i = some obj → w.entry m j = some obj → i = j
  listed : ∀ m obj, (m, obj) ∈ w.added → w.dead obj = false → ∃ i, w.entry m i = some obj

theorem Kept.once (h : w.Kept) : w.Once := by
  intro m obj hadded halive
  obtain ⟨i, hi⟩ := h.listed m obj hadded halive
  exact ⟨i, hi, fun j hj => h.unique m j i obj hj hi⟩

theorem kept_new : (new : World Obj).Kept where
  unique m i j obj hi := by cases hi
  listed m obj hadded := by cases hadded

theorem Kept.collect (h : w.Kept) (hc : w.Takes c) : (w.collect c).Kept where
  unique m i j obj hi hj := h.unique m i j obj (entry_of_collect hi) (entry_of_collect hj)
  listed m obj hadded halive := by
    obtain ⟨hw, -⟩ := Bool.or_eq_false_iff.mp halive
    obtain ⟨i, hi⟩ := h.listed m obj hadded hw
    exact ⟨i, entry_collect_of_alive hc halive hi⟩

theorem Kept.withList (h : w.Kept) (m : String) : (w.withList m).Kept := by
  constructor
  · intro m' i j obj hi hj
    rw [entry_withList] at hi hj
    exact h.unique m' i j obj hi hj
  · intro m' obj hadded halive
    rw [added_withList] at hadded
    rw [dead_withList] at halive
    obtain ⟨i, hi⟩ := h.listed m' obj hadded halive
    exact ⟨i, by rwa [entry_withList]⟩

theorem Kept.insert (h : w.Kept) (hm : (w.module_list m).isSome) (hb : w.Border m b)
    (hnew : ∀ i, w.entry m i ≠ some object) : (w.insert m b object).Kept := by
  constructor
  · intro m' i j obj hi hj
    rw [at_insert hm hb] at hi hj
    rcases hi with hi | ⟨rfl, rfl, rfl⟩ <;> rcases hj with hj | ⟨hj₁, hj₂, hj₃⟩
    · exact h.unique m' i j obj hi hj
    · subst hj₁ hj₃
      exact absurd hi (hnew i)
    · exact absurd hj (hnew j)
    · exact hj₂.symm
  · intro m' obj hadded halive
    obtain ⟨i, hi⟩ := h.listed m' obj hadded halive
    exact ⟨i, (at_insert hm hb).mpr (.inl hi)⟩

/-- An object that is in the list of its module may be noted as added. -/
theorem Kept.add (h : w.Kept) (hobj : ∃ i, w.entry m i = some object) :
    Kept { w with added := w.added ++ [(m, object)] } := by
  refine ⟨h.unique, fun m' obj hadded halive => ?_⟩
  rcases List.mem_append.mp hadded with hadded | hadded
  · exact h.listed m' obj hadded halive
  · obtain ⟨rfl, rfl⟩ := Prod.mk.inj (List.mem_singleton.mp hadded)
    exact hobj

variable [DecidableEq Obj]

theorem addObject_eq (hopen : w.opened = true) (m : String) (object : Obj) (c : Call Obj) :
    w.addObject (some m) (some object) c =
      let w := (w.withList m).collect c.collection
      let w := if c.seen.any fun obj => equals c obj object then w
        else w.insert m c.border object
      { w with added := w.added ++ [(m, object)] } := by
  rw [addObject, hopen]
  cases c.seen.any fun obj => equals c obj object <;> rfl

theorem Kept.addObject (h : w.Kept) {c : Call Obj}
    (hl : w.Legal (.addObject (some m) (some object) c))
    (ha : w.Apart (.addObject (some m) (some object) c)) :
    (w.addObject (some m) (some object) c).Kept := by
  by_cases hopen : w.opened
  · obtain ⟨htakes, halive, hborder, hbefore, hafter⟩ := hl
    have htakes := takes_withList m htakes
    have hkept := (h.withList m).collect htakes
    have hstays : ∀ i, w.entry m i = some object →
        ((w.withList m).collect c.collection).entry m i = some object := by
      intro i hi
      exact entry_collect_of_alive htakes halive (by rwa [entry_withList])
    rw [addObject_eq hopen]
    by_cases hin : ∃ i, ((w.withList m).collect c.collection).entry m i = some object
    · -- the loop meets the object itself
      obtain ⟨i, hi⟩ := hin
      have hany : c.seen.any (fun obj => equals c obj object) = true :=
        List.any_eq_true.mpr ⟨object, hafter i object hi, by simp [equals]⟩
      simp only [hany, if_true]
      exact hkept.add ⟨i, hi⟩
    · have hany : c.seen.any (fun obj => equals c obj object) = false := by
        rw [List.any_eq_false]
        intro obj hobj
        have hne : obj ≠ object := by
          rintro rfl
          obtain ⟨i, hi⟩ := hbefore obj hobj
          exact hin ⟨i, hstays i hi⟩
        rcases ha hopen with ⟨i, hi⟩ | hapart
        · exact absurd ⟨i, hstays i hi⟩ hin
        · simp [equals, hne, hapart obj hobj]
      have hsome : (((w.withList m).collect c.collection).module_list m).isSome := by
        simpa [World.collect] using isSome_withList w m
      simp only [hany, Bool.false_eq_true, if_false]
      refine (hkept.insert hsome hborder fun i hi => hin ⟨i, hi⟩).add ⟨c.border + 1, ?_⟩
      exact (at_insert hsome hborder).mpr (.inr ⟨rfl, rfl, rfl⟩)
  · have hclosed : w.addObject (some m) (some object) c = w := by
      rw [World.addObject, Bool.eq_false_iff.mpr hopen]
      rfl
    rwa [hclosed]

theorem Kept.exec (h : w.Kept) {op : Op Obj} (hl : w.Legal op) (ha : w.Apart op) :
    (w.exec op).Kept := by
  cases op with
  | start => exact ⟨h.unique, h.listed⟩
  | close => exact ⟨h.unique, h.listed⟩
  | collect c => exact h.collect hl
  | addObject m object c =>
    cases m with
    | none =>
      have hnone : w.exec (.addObject none object c) = w := by
        show w.addObject none object c = w
        unfold World.addObject
        split <;> rfl
      rwa [hnone]
    | some m =>
      cases object with
      | none =>
        have hnone : w.exec (.addObject (some m) none c) = w := by
          show w.addObject (some m) none c = w
          unfold World.addObject
          split <;> rfl
        rwa [hnone]
      | some object => exact h.addObject hl ha

/-- An equal object of the list keeps another one out. -/
theorem not_listed {c : Call Obj} (hl : w.Legal (.addObject (some m) (some object) c))
    (ha : ¬ w.Apart (.addObject (some m) (some object) c)) :
    ¬ (w.addObject (some m) (some object) c).Once := by
  intro honce
  have hopen : w.opened = true := by
    by_contra hopen
    exact ha fun h => absurd h hopen
  have hin : ¬ ∃ i, w.entry m i = some object := fun hin => ha fun _ => .inl hin
  have hany : c.seen.any (fun obj => equals c obj object) = true := by
    by_contra hany
    refine ha fun _ => .inr fun obj hobj => ?_
    have hne := List.any_eq_false.mp (Bool.eq_false_iff.mpr hany) obj hobj
    simp only [equals, Bool.or_eq_true, not_or, Bool.not_eq_true] at hne
    exact hne.2
  rw [addObject_eq hopen] at honce
  simp only [hany, if_true] at honce
  obtain ⟨i, hi, -⟩ := honce m object (by simp) hl.2.1
  exact hin ⟨i, by simpa [entry_withList] using entry_of_collect hi⟩

end World

/-! ## Runs -/

variable [DecidableEq Obj]

/-- In every run in which no object is kept out by one that is equal to it, each object that was
added and is alive is listed once; and a step keeps that just when it keeps no object out. -/
theorem listed_once {w : World Obj}
    (hw : Machine.Reach World.exec (fun w op => w.Legal op ∧ w.Apart op) new w) :
    w.Once ∧ ∀ op, w.Legal op → ((w.exec op).Once ↔ w.Apart op) := by
  have hkept : w.Kept := hw.invariant World.kept_new fun w op h hop => h.exec hop.1 hop.2
  refine ⟨hkept.once, fun op hl => ⟨fun honce => ?_, fun ha => (hkept.exec hl ha).once⟩⟩
  by_contra ha
  cases op with
  | addObject m object c =>
    cases m with
    | none => exact ha trivial
    | some m =>
      cases object with
      | none => exact ha trivial
      | some object => exact World.not_listed hl ha honce
  | _ => exact ha trivial

/-- No collection. -/
def idle : Collection Nat := ⟨fun _ => false, fun _ _ => false⟩

/-- The first object of a module. -/
def one : World Nat := new.exec (.addObject (some "m") (some 1) ⟨fun _ _ => false, idle, [], 0⟩)

/-- A second one, of a class with the metamethod `eq`. -/
def second (eq : Nat → Nat → Bool) : Op Nat := .addObject (some "m") (some 2) ⟨eq, idle, [1], 1⟩

theorem legal_one :
    (new : World Nat).Legal (.addObject (some "m") (some 1) ⟨fun _ _ => false, idle, [], 0⟩) := by
  have hempty : ∀ m i, ((new.withList "m").collect idle : World Nat).entry m i = none := by
    intro m i
    rw [World.entry_collect, World.entry_withList]
    rfl
  refine ⟨fun _ _ _ _ htakes => ?_, rfl, ⟨.inl rfl, hempty _ _⟩, fun obj hobj => ?_,
    fun i obj hi => ?_⟩
  · exact absurd htakes Bool.false_ne_true
  · exact absurd hobj List.not_mem_nil
  · rw [hempty] at hi
    cases hi

theorem entry_one (m : String) (i : Nat) :
    one.entry m i = if m = "m" ∧ i = 1 then some 1 else none := by
  rw [one, World.exec, World.addObject_eq rfl]
  show (World.insert _ "m" 0 1).entry m i = _
  rw [World.entry_insert rfl, World.entry_collect, World.entry_withList]
  rfl

theorem legal_second (eq : Nat → Nat → Bool) : one.Legal (second eq) := by
  have hentry : ∀ m i, ((one.withList "m").collect idle).entry m i =
      if m = "m" ∧ i = 1 then some 1 else none := by
    intro m i
    rw [World.entry_collect, World.entry_withList, ← entry_one]
    rfl
  refine ⟨fun _ _ _ _ htakes => ?_, rfl, ⟨.inr ?_, ?_⟩, fun obj hobj => ⟨1, ?_⟩, fun i obj hi => ?_⟩
  · exact absurd htakes Bool.false_ne_true
  · rw [hentry]
    rfl
  · rw [hentry]
    rfl
  · rw [entry_one, List.mem_singleton.mp hobj]
    rfl
  · rw [hentry] at hi
    split at hi
    · rw [← Option.some.inj hi]
      exact List.mem_singleton_self 1
    · cases hi

theorem listed_once_two : (one.exec (second fun _ _ => false)).Once :=
  (listed_once (.step _ (.step _ .init ⟨legal_one, fun _ => .inr fun _ _ => rfl⟩)
    ⟨legal_second _, fun _ => .inr fun _ _ => rfl⟩)).1

/-- An object that is equal to the first one is not in the list. -/
theorem equal_object_missing : ¬ ∀ w : World Nat,
    Machine.Reach World.exec World.Legal new w → w.Once := by
  intro h
  refine World.not_listed (legal_second fun _ _ => true) ?_
    (h _ (.step (second fun _ _ => true) (.step _ .init legal_one) (legal_second _)))
  intro hapart
  rcases hapart rfl with ⟨i, hi⟩ | heq
  · rw [entry_one] at hi
    split at hi <;> cases hi
  · cases heq 1 (List.mem_singleton_self 1)

end SkynetHotfix.Class.Weak
