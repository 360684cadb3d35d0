import SkynetHotfix.Class.Override

/-!
# Under which modules an instance is registered

`new` registers an instance under its own `__cmodule_name`, and then, for every
superclass that has a name, under that of the first superclass: the loop names
`super` where it means `super_class` (`grandparent_not_registered`). The name is
that of the class table, which `import` sets and `hotfixFile` does not. And
`addObject` passes over an object that `__eq` says is equal to one of the list
(`equal_not_registered`). So the live instances are registered under the imported
modules of their class and its ancestors just as long as each `new` has no other
imported module to register under than these two, with nothing equal in its list,
and nothing is imported after its instances (`instances_registered`).
-/

namespace SkynetHotfix.Class

open Function (update)

/-- A service with the modules that were imported. -/
structure Tracked where
  service : Service
  imported : List String

namespace Tracked

def start : Tracked := ⟨Service.start, []⟩

def exec (x : Tracked) (s : Step) : Tracked where
  service := x.service.exec s
  imported := match s with
    | .import_ m file => if (x.service.require m file).2.isSome then m :: x.imported else x.imported
    | _ => x.imported

end Tracked

/-- The modules of a class and of its ancestors. -/
def Table.modules (t : Table) : List String := (t :: t.ancestors).map Table.module

/-- Every live instance is registered under the imported modules of its class. -/
def Tracked.Registered (x : Tracked) : Prop :=
  ∀ o i, x.service.objects o = some i → ∀ m ∈ i.cls.modules, m ∈ x.imported →
    o ∈ x.service.registered m

/-! ## What `new` registers -/

namespace Service

variable {w : Service}

/-- `instance.__cmodule_name` -/
def instanceName (w : Service) (cls : Table) (own : String → Option Value) : Option String :=
  match own "__cmodule_name" with
  | some (.str m) => some m
  | some _ => none
  | none => w.moduleName cls

variable {eq₁ : Nat → Bool} {eq : Nat → Nat → Bool}

@[simp] theorem addObject_cmodule_name (m : Option String) (o : Nat) :
    (w.addObject m o eq₁).cmodule_name = w.cmodule_name := by
  unfold addObject
  split
  · rfl
  · split <;> rfl

@[simp] theorem addObject_opened (m : Option String) (o : Nat) :
    (w.addObject m o eq₁).opened = w.opened := by
  unfold addObject
  split
  · rfl
  · split <;> rfl

theorem moduleName_congr {w' : Service} (h : w'.cmodule_name = w.cmodule_name) (t : Table) :
    w'.moduleName t = w.moduleName t := by
  induction t with
  | root => simp [moduleName, h]
  | sub id m fs s ih => simp [moduleName, h, ih]

/-- No object of the list of the module is equal to the new one. -/
def Unlike (w : Service) (eq : Nat → Bool) (m : String) : Prop :=
  ∀ obj ∈ w.registered m, eq obj = false

instance (w : Service) (eq : Nat → Bool) (m : String) : Decidable (w.Unlike eq m) :=
  inferInstanceAs (Decidable (∀ obj ∈ w.registered m, eq obj = false))

theorem need_add_iff {l : List Nat} {o : Nat} :
    (!l.any fun obj => obj = o || eq₁ obj) = true ↔ o ∉ l ∧ ∀ obj ∈ l, eq₁ obj = false := by
  simp only [Bool.not_eq_true', List.any_eq_false, Bool.or_eq_true, decide_eq_true_eq, not_or,
    Bool.not_eq_true]
  exact ⟨fun h => ⟨fun ho => (h o ho).1 rfl, fun obj hobj => (h obj hobj).2⟩,
    fun ⟨ho, h⟩ obj hobj => ⟨fun e => ho (e ▸ hobj), h obj hobj⟩⟩

theorem mem_addObject {name : Option String} {o o' : Nat} {m : String} :
    o' ∈ (w.addObject name o eq₁).registered m ↔
      o' ∈ w.registered m ∨ o' = o ∧ w.opened = true ∧ name = some m ∧ w.Unlike eq₁ m := by
  unfold addObject
  cases name with
  | none => simp
  | some n =>
    by_cases hop : w.opened = true
    · simp only [hop, if_true, registered, Option.some.injEq]
      by_cases hm : m = n
      · subst hm
        simp only [Function.update_self, Option.getD_some, need_add_iff]
        split
        · next h =>
          rw [List.mem_append, List.mem_singleton]
          exact or_congr_right ⟨fun e => ⟨e, trivial, trivial, h.2⟩, fun e => e.1⟩
        · next h =>
          constructor
          · exact .inl
          · rintro (h' | ⟨rfl, -, -, hun⟩)
            · exact h'
            · by_contra ho
              exact h ⟨ho, hun⟩
      · have hm' : ¬ n = m := fun e => hm e.symm
        simp [Function.update_of_ne hm, hm']
    · simp [hop]

/-- The call for the superclass with `left` behind it: it has a name, and nothing in the list is
equal then. -/
def Reaches (w : Service) (eq : Nat → Nat → Bool) (l : List Table) (m : String) : Prop :=
  ∃ t left, t :: left <:+ l ∧ (w.moduleName t).isSome ∧ w.Unlike (eq left.length) m

theorem reaches_cons {t : Table} {l : List Table} {m : String} :
    w.Reaches eq (t :: l) m ↔
      ((w.moduleName t).isSome ∧ w.Unlike (eq l.length) m) ∨ w.Reaches eq l m := by
  constructor
  · rintro ⟨t', left, hs, h⟩
    rcases List.suffix_cons_iff.mp hs with e | hs
    · obtain ⟨rfl, rfl⟩ := List.cons.inj e
      exact .inl h
    · exact .inr ⟨t', left, hs, h⟩
  · rintro (h | ⟨t', left, hs, h⟩)
    · exact ⟨t, l, List.suffix_rfl, h⟩
    · exact ⟨t', left, hs.trans (List.suffix_cons t l), h⟩

instance decidableReaches (w : Service) (eq : Nat → Nat → Bool) (m : String) :
    ∀ l, Decidable (w.Reaches eq l m)
  | [] => .isFalse fun ⟨_, _, hs, _⟩ => by cases List.suffix_nil.mp hs
  | t :: l =>
    have := decidableReaches w eq m l
    decidable_of_iff (((w.moduleName t).isSome ∧ w.Unlike (eq l.length) m) ∨ w.Reaches eq l m)
      reaches_cons.symm

theorem mem_addSupers {super : Table} {o o' : Nat} {m : String} (l : List Table) :
    o' ∈ (w.addSupers super o eq l).registered m ↔
      o' ∈ w.registered m ∨
        o' = o ∧ w.opened = true ∧ w.moduleName super = some m ∧ w.Reaches eq l m := by
  induction l generalizing w with
  | nil => simp [addSupers, Reaches]
  | cons t l ih =>
    rw [addSupers, reaches_cons]
    by_cases ht : (w.moduleName t).isSome
    · rw [if_pos ht, ih, mem_addObject, addObject_opened,
        moduleName_congr (addObject_cmodule_name _ _)]
      constructor
      · rintro ((h | ⟨ho, hop, hn, hun⟩) | ⟨ho, hop, hn, t', left, hs, ht', hun⟩)
        · exact .inl h
        · exact .inr ⟨ho, hop, hn, .inl ⟨ht, hun⟩⟩
        · rw [moduleName_congr (addObject_cmodule_name _ _)] at ht'
          exact .inr ⟨ho, hop, hn, .inr ⟨t', left, hs, ht', fun obj hobj =>
            hun obj (mem_addObject.mpr (.inl hobj))⟩⟩
      · rintro (h | ⟨ho, hop, hn, ⟨-, hun⟩ | ⟨t', left, hs, ht', hun⟩⟩)
        · exact .inl (.inl h)
        · exact .inl (.inr ⟨ho, hop, hn, hun⟩)
        · -- it is listed by now, or nothing has been added to the list
          by_cases hlisted : o' ∈ w.registered m ∨
              o' = o ∧ w.opened = true ∧ w.moduleName super = some m ∧ w.Unlike (eq l.length) m
          · exact .inl hlisted
          · refine .inr ⟨ho, hop, hn, t', left, hs, ?_, fun obj hobj => ?_⟩
            · rwa [moduleName_congr (addObject_cmodule_name _ _)]
            · rcases mem_addObject.mp hobj with hobj | ⟨rfl, hob⟩
              · exact hun obj hobj
              · exact absurd (.inr ⟨ho, hob⟩) hlisted
    · rw [if_neg ht, ih]
      simp [ht]

/-- The modules that `new` registers an instance under. -/
def namesOf (w : Service) (cls : Table) (own : String → Option Value) (eq : Nat → Nat → Bool)
    (m : String) : Prop :=
  w.opened = true ∧
    (w.instanceName cls own = some m ∧ w.Unlike (eq cls.ancestors.length) m ∨
      cls.super.bind w.moduleName = some m ∧ w.Reaches eq cls.ancestors m)

instance (w : Service) (cls : Table) (own : String → Option Value) (eq : Nat → Nat → Bool)
    (m : String) : Decidable (w.namesOf cls own eq m) :=
  inferInstanceAs (Decidable (_ ∧ (_ ∧ _ ∨ _ ∧ _)))

/-- The registrations of `new`, of an instance whose own name is `name`. -/
theorem mem_registrations {cls : Table} {name : Option String} {o o' : Nat} {m : String} :
    o' ∈ Service.registered (match cls.super with
      | none => w.addObject name o eq₁
      | some super => (w.addObject name o eq₁).addSupers super o eq cls.ancestors) m ↔
    o' ∈ w.registered m ∨ o' = o ∧ w.opened = true ∧ (name = some m ∧ w.Unlike eq₁ m ∨
      cls.super.bind w.moduleName = some m ∧ w.Reaches eq cls.ancestors m) := by
  cases cls with
  | root => simp [Table.super, mem_addObject]
  | sub id module fields s =>
    show o' ∈ (Service.addSupers _ s _ _ (s :: s.ancestors)).registered m ↔
      _ ∨ _ ∧ _ ∧ (_ ∨ w.moduleName s = some m ∧ w.Reaches eq (s :: s.ancestors) m)
    generalize s :: s.ancestors = l
    rw [mem_addSupers, mem_addObject, addObject_opened,
      moduleName_congr (addObject_cmodule_name _ _)]
    constructor
    · rintro ((h | ⟨ho, hop, hn⟩) | ⟨ho, hop, hn, t, left, hs, ht, hun⟩)
      · exact .inl h
      · exact .inr ⟨ho, hop, .inl hn⟩
      · rw [moduleName_congr (addObject_cmodule_name _ _)] at ht
        exact .inr ⟨ho, hop, .inr ⟨hn, t, left, hs, ht, fun obj hobj =>
          hun obj (mem_addObject.mpr (.inl hobj))⟩⟩
    · rintro (h | ⟨ho, hop, hn | ⟨hn, t, left, hs, ht, hun⟩⟩)
      · exact .inl (.inl h)
      · exact .inl (.inr ⟨ho, hop, hn⟩)
      · by_cases hlisted : o' ∈ w.registered m ∨
            o' = o ∧ w.opened = true ∧ name = some m ∧ w.Unlike eq₁ m
        · exact .inl hlisted
        · refine .inr ⟨ho, hop, hn, t, left, hs, ?_, fun obj hobj => ?_⟩
          · rwa [moduleName_congr (addObject_cmodule_name _ _)]
          · rcases mem_addObject.mp hobj with hobj | ⟨rfl, hob⟩
            · exact hun obj hobj
            · exact absurd (.inr ⟨ho, hob⟩) hlisted

theorem mem_new {cls : Table} {ctor : (String → Option Value) → String → Option Value} {o : Nat}
    {m : String} :
    o ∈ (w.new cls ctor eq).registered m ↔ o ∈ w.registered m ∨ o = w.instances ∧
      w.namesOf cls (ctor (update (fun _ => none) "class" (some (.table cls.id)))) eq m := by
  let own := ctor (update (fun _ => none) "class" (some (.table cls.id)))
  let w₁ : Service := { w with
    instances := w.instances + 1
    objects := update w.objects w.instances (some ⟨cls, own⟩)
    log := w.log ++ [Event.created w.instances ⟨cls, own⟩] }
  have hname : ∀ t, w₁.moduleName t = w.moduleName t := moduleName_congr rfl
  have hself : w₁.instanceName cls own = w.instanceName cls own := by
    unfold instanceName
    rw [hname]
  have hsuper : w₁.moduleName = w.moduleName := funext hname
  have hreaches : w₁.Reaches eq cls.ancestors m ↔ w.Reaches eq cls.ancestors m := by
    unfold Reaches
    rw [hsuper]
    rfl
  unfold namesOf
  rw [← hself, ← hsuper, ← hreaches]
  exact mem_registrations

theorem addObject_frame (m : Option String) (o : Nat) (eq₁ : Nat → Bool) :
    (w.addObject m o eq₁).objects = w.objects ∧ (w.addObject m o eq₁).instances = w.instances ∧
      (w.addObject m o eq₁).loaded = w.loaded := by
  unfold addObject
  split
  · exact ⟨rfl, rfl, rfl⟩
  · split <;> exact ⟨rfl, rfl, rfl⟩

theorem addSupers_frame (super : Table) (o : Nat) (eq : Nat → Nat → Bool) (l : List Table) :
    (w.addSupers super o eq l).objects = w.objects ∧
      (w.addSupers super o eq l).instances = w.instances ∧
      (w.addSupers super o eq l).loaded = w.loaded := by
  induction l generalizing w with
  | nil => exact ⟨rfl, rfl, rfl⟩
  | cons t l ih =>
    rw [addSupers]
    split
    · rw [ih.1, ih.2.1, ih.2.2]
      exact addObject_frame _ _ _
    · exact ih

theorem new_frame (cls : Table) (ctor : (String → Option Value) → String → Option Value)
    (eq : Nat → Nat → Bool) :
    (w.new cls ctor eq).objects = update w.objects w.instances
        (some ⟨cls, ctor (update (fun _ => none) "class" (some (.table cls.id)))⟩) ∧
      (w.new cls ctor eq).instances = w.instances + 1 ∧
      (w.new cls ctor eq).loaded = w.loaded := by
  unfold new
  cases cls with
  | root id module fields => exact addObject_frame _ _ _
  | sub id module fields s =>
    show (Service.addSupers _ _ _ _ _).objects = _ ∧ (Service.addSupers _ _ _ _ _).instances = _ ∧
      (Service.addSupers _ _ _ _ _).loaded = _
    rw [(addSupers_frame _ _ _ _).1, (addSupers_frame _ _ _ _).2.1, (addSupers_frame _ _ _ _).2.2]
    exact addObject_frame _ _ _

/-- A hotfix keeps what is registered, and the class of every instance. -/
theorem hotfixFile_frame (call : Call) :
    (w.hotfixFile call).1.module_list = w.module_list ∧
      (w.hotfixFile call).1.instances = w.instances ∧
      ∀ o i, (w.hotfixFile call).1.objects o = some i → ∃ i₀, w.objects o = some i₀ ∧ i.cls = i₀.cls := by
  by_cases hop : w.opened = true
  · rw [(hotfixFile_of_open hop call).1]
    refine ⟨reloadAll_module_list _ w, ?_, fun o i hi => ?_⟩
    · exact reloadAll_instances _ w
    · rw [objects_reloadAll] at hi
      obtain ⟨i₀, hi₀, rfl⟩ := Option.map_eq_some_iff.mp hi
      exact ⟨i₀, hi₀, cls_foldl_after _ i₀⟩
  · unfold hotfixFile
    rw [if_neg hop]
    exact ⟨rfl, rfl, fun o i hi => ⟨i, hi, rfl⟩⟩

end Service

/-! ## Runs -/

/-- The steps after which what lives is registered: the modules that a new instance is to be
registered under are those that `new` registers it under, and a module is imported before there
are instances that it would not find registered. -/
def Tags (x : Tracked) : Step → Prop
  | .new cls ctor eq => ∀ m ∈ cls.modules, m ∈ x.imported →
    x.service.namesOf cls (ctor (update (fun _ => none) "class" (some (.table cls.id)))) eq m
  | .import_ m file => (x.service.require m file).2.isSome →
    ∀ o i, x.service.objects o = some i → m ∈ i.cls.modules → o ∈ x.service.registered m
  | _ => True

/-- What is registered has been made. -/
def Made (w : Service) : Prop := ∀ m, ∀ o ∈ w.registered m, o < w.instances

theorem Made.exec {w : Service} (h : Made w) (s : Step) : Made (w.exec s) := by
  intro m o ho
  cases s with
  | import_ name file =>
    obtain ⟨-, -, hm, hi⟩ := w.import_frame name file
    rw [Service.exec, Service.registered, hm] at ho
    rw [Service.exec, hi]
    exact h m o ho
  | new cls ctor eq =>
    rw [Service.exec, (Service.new_frame cls ctor eq).2.1]
    rcases Service.mem_new.mp ho with ho | ⟨rfl, -⟩
    · exact Nat.lt_succ_of_lt (h m o ho)
    · exact Nat.lt_succ_self _
  | hotfixFile call =>
    obtain ⟨hm, hi, -⟩ := @Service.hotfixFile_frame w call
    rw [Service.exec, Service.registered, hm] at ho
    rw [Service.exec, hi]
    exact h m o ho
  | setOpen opened => exact h m o ho
  | collect object =>
    refine h m o ?_
    rw [Service.registered] at ho ⊢
    cases hm : w.module_list m with
    | none => simp [Service.exec, Service.collect, hm] at ho
    | some objects =>
      have ho' : o ∈ objects ∧ o ≠ object := by
        simpa [Service.exec, Service.collect, hm] using ho
      exact ho'.1

/-- A step keeps what lives registered just when it is one of `Tags`. -/
theorem registered_exec {x : Tracked} (h : x.Registered) (hmade : Made x.service) (s : Step) :
    (x.exec s).Registered ↔ Tags x s := by
  cases s with
  | import_ name file =>
    obtain ⟨hobj, -, hlist, -⟩ := x.service.import_frame name file
    have hreg : ∀ m, (x.service.import_ name file).registered m = x.service.registered m := by
      intro m
      rw [Service.registered, hlist, Service.registered]
    unfold Tracked.Registered Tags
    simp only [Tracked.exec, Service.exec, hobj, hreg]
    by_cases hr : (x.service.require name file).2.isSome
    · simp only [hr, if_true, forall_const, List.mem_cons]
      constructor
      · exact fun h' o i hi hm => h' o i hi name hm (.inl rfl)
      · rintro h' o i hi m hm (rfl | him)
        · exact h' o i hi hm
        · exact h o i hi m hm him
    · simp only [hr, Bool.false_eq_true, if_false, false_imp_iff, iff_true]
      exact h
  | new cls ctor eq =>
    unfold Tracked.Registered Tags
    simp only [Tracked.exec, Service.exec, (Service.new_frame cls ctor eq).1, Service.mem_new]
    constructor
    · intro h' m hm him
      rcases h' x.service.instances _ (Function.update_self ..) m hm him with ho | ⟨-, hn⟩
      · exact absurd (hmade m _ ho) (Nat.lt_irrefl _)
      · exact hn
    · intro h' o i hi m hm him
      by_cases he : o = x.service.instances
      · subst he
        rw [Function.update_self] at hi
        obtain rfl := Option.some.inj hi
        exact .inr ⟨rfl, h' m hm him⟩
      · rw [Function.update_of_ne he] at hi
        exact .inl (h o i hi m hm him)
  | hotfixFile call =>
    obtain ⟨hlist, -, hobj⟩ := @Service.hotfixFile_frame x.service call
    refine iff_of_true (fun o i hi m hm him => ?_) trivial
    obtain ⟨i₀, hi₀, hcls⟩ := hobj o i hi
    show o ∈ ((x.service.hotfixFile call).1.module_list m).getD []
    rw [hlist]
    exact h o i₀ hi₀ m (hcls ▸ hm) him
  | setOpen opened => exact iff_of_true h trivial
  | collect object =>
    refine iff_of_true (fun o i hi m hm him => ?_) trivial
    have hne : o ≠ object := by
      rintro rfl
      simp [Tracked.exec, Service.exec, Service.collect] at hi
    have hi' : x.service.objects o = some i := by
      simpa [Tracked.exec, Service.exec, Service.collect, hne] using hi
    have ho := h o i hi' m hm him
    show o ∈ ((x.service.module_list m).map (·.filter (· ≠ object))).getD []
    rw [Service.registered] at ho
    cases hl : x.service.module_list m with
    | none =>
      rw [hl] at ho
      exact ho
    | some objects =>
      rw [hl] at ho
      exact List.mem_filter.mpr ⟨ho, by simpa using hne⟩

/-- In a run whose steps are all of `Tags`, every live instance is registered under the imported
modules of its class and of its ancestors; and any other step leaves one that is not. -/
theorem instances_registered {x : Tracked}
    (h : Machine.Reach Tracked.exec (fun x s => Legal x.service s ∧ Tags x s) Tracked.start x) :
    x.Registered ∧ ∀ s, (x.exec s).Registered ↔ Tags x s := by
  have hinv : x.Registered ∧ Made x.service := by
    refine @Machine.Reach.invariant _ _ _ _ _ _ (fun x => x.Registered ∧ Made x.service) h ?_ ?_
    · exact ⟨fun o i hi => (by cases hi), fun m o ho => (by cases ho)⟩
    · exact fun x s hx hs => ⟨(registered_exec hx.1 hx.2 s).mpr hs.2, hx.2.exec s⟩
  exact ⟨hinv.1, registered_exec hinv.1 hinv.2⟩

theorem plain_hit (hit : Nat) : ∀ kv ∈ [("hit", Value.func (.method hit))], kv.1 ∉ reserved := by
  simp [reserved]

/-- The files of the superclass and of its subclass, with the method that they define. -/
def creatureFile (hit : Nat) : File :=
  .class "Creature" none [("hit", .func (.method hit))] (plain_hit hit)

def knightFile (hit : Nat) : File :=
  .class "Knight" (some (creature 0 0)) [("hit", .func (.method hit))] (plain_hit hit)

/-- Both are imported, and an instance is made. -/
def knightTracked : Tracked :=
  ((Tracked.start.exec (.import_ "Creature" (creatureFile 0))).exec
    (.import_ "Knight" (knightFile 1))).exec (.new knight id unequal)

theorem instances_registered_sample : knightTracked.Registered := by
  refine (instances_registered (.step _ (.step _ (.step _ .init ?_) ?_) ?_)).1
  · exact ⟨trivial, fun _ o i hi => by cases hi⟩
  · exact ⟨trivial, fun _ o i hi => by cases hi⟩
  · refine ⟨trivial, ?_⟩
    show ∀ m ∈ knight.modules, m ∈ _ → Service.namesOf _ _ _ _ m
    decide +kernel

/-- A second knight, which `__eq` says is equal to the first, is not registered. -/
theorem equal_not_registered :
    ¬ (knightTracked.exec (.new knight id fun _ _ => true)).Registered := by
  intro h
  obtain ⟨i, hi⟩ := Option.isSome_iff_exists.mp
    (show ((knightTracked.exec (.new knight id fun _ _ => true)).service.objects 1).isSome by
      decide +kernel)
  have hm : ((knightTracked.exec (.new knight id fun _ _ => true)).service.objects 1).all
      fun i => "Knight" ∈ i.cls.modules := by decide +kernel
  rw [hi] at hm
  exact absurd (h 1 i hi "Knight" (by simpa using hm) (by decide +kernel)) (by decide +kernel)

/-- A class two levels below another. -/
def boss : Table := class_ 2 "Boss" "Boss" (some knight)

def bossTracked : Tracked :=
  (((Tracked.start.exec (.import_ "Creature" (creatureFile 0))).exec
    (.import_ "Knight" (knightFile 1))).exec
    (.import_ "Boss" (.class "Boss" (some knight) [] (by decide)))).exec (.new boss id unequal)

/-- An instance of a class that a hotfix has loaded. -/
def reloadedTracked : Tracked :=
  (((Tracked.start.exec (.import_ "Creature" (creatureFile 0))).exec
    (.new (creature 0 0) id unequal)).exec (.hotfixFile
      (.single ⟨"Creature", creatureFile 2, fun _ => false⟩))).exec (.new (creature 1 2) id unequal)

/-- The first instance is not registered under the module of its class's grandparent, the other not
even under its own. -/
theorem grandparent_not_registered :
    ¬ (∀ x, Machine.Reach Tracked.exec (fun x s => Legal x.service s) Tracked.start x →
      x.Registered) ∧ ¬ bossTracked.Registered ∧ ¬ reloadedTracked.Registered := by
  have hboss : ¬ bossTracked.Registered := by
    intro h
    obtain ⟨i, hi⟩ := Option.isSome_iff_exists.mp
      (show (bossTracked.service.objects 0).isSome by decide +kernel)
    have hm : (bossTracked.service.objects 0).all fun i => "Creature" ∈ i.cls.modules := by
      decide +kernel
    rw [hi] at hm
    have hno : 0 ∉ bossTracked.service.registered "Creature" := by decide +kernel
    exact hno (h 0 i hi "Creature" (by simpa using hm) (by decide +kernel))
  have hreloaded : ¬ reloadedTracked.Registered := by
    intro h
    obtain ⟨i, hi⟩ := Option.isSome_iff_exists.mp
      (show (reloadedTracked.service.objects 1).isSome by decide +kernel)
    have hm : (reloadedTracked.service.objects 1).all fun i => "Creature" ∈ i.cls.modules := by
      decide +kernel
    rw [hi] at hm
    have hno : 1 ∉ reloadedTracked.service.registered "Creature" := by decide +kernel
    exact hno (h 1 i hi "Creature" (by simpa using hm) (by decide +kernel))
  exact ⟨fun h => hboss (h bossTracked
    (.step _ (.step _ (.step _ (.step _ .init trivial) trivial) trivial) trivial)),
    hboss, hreloaded⟩

end SkynetHotfix.Class
