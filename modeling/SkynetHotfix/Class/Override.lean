import SkynetHotfix.Class.Atomic

/-!
# Whose methods an instance answers after updates

`class.new` registers an instance under its own module and under that of its
superclass, and `hotfixFile` writes the functions of a module into whatever is
registered for it. So an update of a superclass overwrites what a subclass
overrides; with classes made by `class` it always does, since each has a
`getClassName` of its own (`reload_overwrites`). In runs whose updates find
registered only instances of the updated class itself (`Apart`), an instance
answers every name as its own class and the later versions of it say, whatever
happens to the modules of its superclasses (`override_kept`).
-/

namespace SkynetHotfix.Class

/-- The versions of the module that were installed in the object, by the log. -/
def versions (module : String) (o : Nat) (log : List Event) : List Table :=
  log.filterMap fun
    | .updated m t objects => if m = module ∧ o ∈ objects then some t else none
    | _ => none

/-- What is registered for the module are instances of a class that the module made. -/
def Service.Own (w : Service) (m : String) : Prop :=
  ∀ o ∈ w.registered m, ∀ i, w.objects o = some i → i.cls.module = m

/-- The file returns a table with a field: it is found, does not raise, and has something to
install. -/
def Reload.Installs (r : Reload) : Prop :=
  ∃ id t k, r.file.value r.module id = some (.table t) ∧ t.raw k ≠ none

/-- The steps in which every module that is updated has registered for it instances of its own
class only, and none of a subclass, unless its file installs nothing. -/
def Apart (w : Service) : Step → Prop
  | .hotfixFile call => call.Traverses w ∧ (w.opened = true → ∀ r ∈ call.reloads,
    w.isLoaded r.module = true → r.Installs → w.Own r.module)
  | _ => True

/-- Every live instance answers as it did when it was made, but for the versions of its own
class. -/
structure Kept (w : Service) : Prop where
  live : ∀ o i, w.objects o = some i → o < w.instances
  created : ∀ o i, .created o i ∈ w.log → o < w.instances
  answers : ∀ l₁ l₂ o i₀ i, w.log = l₁ ++ .created o i₀ :: l₂ → w.objects o = some i →
    i.cls = i₀.cls ∧
      ∀ k, i.resolve k = (versions i₀.cls.module o l₂).foldl (current k) (i₀.resolve k)

theorem versions_append (m : String) (o : Nat) (l l' : List Event) :
    versions m o (l ++ l') = versions m o l ++ versions m o l' := List.filterMap_append

/-- Splitting a log in front of what was added to it. -/
theorem split_append {l l' l₁ l₂ : List Event} {e : Event} (h : l ++ l' = l₁ ++ e :: l₂)
    (he : e ∉ l') : ∃ l₃, l = l₁ ++ e :: l₃ ∧ l₂ = l₃ ++ l' := by
  rcases List.append_eq_append_iff.mp h with ⟨l₃, rfl, hl⟩ | ⟨l₃, rfl, hl⟩
  · exact absurd (hl ▸ List.mem_append_right _ List.mem_cons_self) he
  · cases l₃ with
    | nil => exact absurd (by rw [← show e :: l₂ = l' from hl]; exact List.mem_cons_self) he
    | cons e' l₃ =>
      obtain ⟨rfl, rfl⟩ := List.cons.inj hl
      exact ⟨l₃, rfl, rfl⟩

namespace Kept

variable {w : Service}

theorem start : Kept Service.start where
  live o i := by simp [Service.start]
  created o i := by simp [Service.start]
  answers l₁ l₂ o i₀ i := by simp [Service.start]

/-- What neither makes nor changes an instance keeps `Kept`. -/
theorem of_eq {w' : Service} (h : Kept w) (ho : w'.objects = w.objects) (hl : w'.log = w.log)
    (hi : w'.instances = w.instances) : Kept w' where
  live := by rw [ho, hi]; exact h.live
  created := by rw [hl, hi]; exact h.created
  answers := by rw [ho, hl]; exact h.answers

theorem import_ (h : Kept w) (m : String) (file : File) : Kept (w.import_ m file) := by
  obtain ⟨ho, hl, -, hi⟩ := w.import_frame m file
  exact h.of_eq ho hl hi

theorem addObject (h : Kept w) (m : Option String) (o : Nat) (eq : Nat → Bool) :
    Kept (w.addObject m o eq) := by
  unfold Service.addObject
  split
  · exact h
  · split
    · exact h.of_eq rfl rfl rfl
    · exact h

theorem addSupers (super : Table) (o : Nat) (eq : Nat → Nat → Bool) (l : List Table) (h : Kept w) :
    Kept (w.addSupers super o eq l) := by
  induction l generalizing w with
  | nil => exact h
  | cons super_class rest ih =>
    rw [Service.addSupers]
    refine ih ?_
    split
    · exact h.addObject _ _ _
    · exact h

/-- An instance is made. -/
theorem created_new (h : Kept w) (i : Instance) :
    Kept { w with
      instances := w.instances + 1
      objects := Function.update w.objects w.instances (some i)
      log := w.log ++ [Event.created w.instances i] } where
  live o i' ho := by
    by_cases e : o = w.instances
    · subst e; exact Nat.lt_succ_self _
    · exact Nat.lt_succ_of_lt (h.live o i' (by simpa [e] using ho))
  created o i' hm := by
    rcases List.mem_append.mp hm with hm | hm
    · exact Nat.lt_succ_of_lt (h.created o i' hm)
    · cases List.mem_singleton.mp hm; exact Nat.lt_succ_self _
  answers l₁ l₂ o i₀ i' hl ho := by
    simp only at hl ho
    by_cases e : .created o i₀ ∈ [Event.created w.instances i]
    · -- It is this instance: no other event of the log is about it.
      cases List.mem_singleton.mp e
      have hn : .created w.instances i ∉ w.log := fun hm => Nat.lt_irrefl _ (h.created _ _ hm)
      have hl₂ : l₂ = [] := by
        rcases List.eq_nil_or_concat l₂ with rfl | ⟨l₃, e', rfl⟩
        · rfl
        · rw [List.concat_eq_append, ← List.cons_append, ← List.append_assoc] at hl
          exact absurd (by rw [(List.append_inj' hl rfl).1]; simp) hn
      rw [Function.update_self] at ho
      cases ho
      rw [hl₂]
      exact ⟨rfl, fun _ => rfl⟩
    · obtain ⟨l₃, hl₃, rfl⟩ := split_append hl e
      have hlt : o < w.instances := h.created o i₀ (by rw [hl₃]; simp)
      rw [Function.update_of_ne (Nat.ne_of_lt hlt)] at ho
      rw [versions_append]
      simpa [versions] using h.answers l₁ l₃ o i₀ i' hl₃ ho

theorem new (h : Kept w) (cls : Table) (ctor : (String → Option Value) → String → Option Value)
    (eq : Nat → Nat → Bool) : Kept (w.new cls ctor eq) := by
  unfold Service.new
  split
  · exact (h.created_new _).addObject _ _ _
  · exact addSupers _ _ _ _ ((h.created_new _).addObject _ _ _)

/-- A reload writes into the instances of its own module's class only. -/
theorem reload (h : Kept w) (r : Reload) (ho : r.Installs → w.Own r.module) :
    Kept (w.reload r).1 := by
  have hnone : ∀ o i, .created o i ∉ w.updates r := by
    intro o i
    unfold Service.updates
    split <;> simp
  have hlog : (w.reload r).1.log = w.log ++ w.updates r := by rw [Service.reload_eq]
  have hinst : (w.reload r).1.instances = w.instances := by rw [Service.reload_eq]
  have hobj : ∀ o i', (w.reload r).1.objects o = some i' → ∃ i, w.objects o = some i ∧
      (w.tablesFor o [(r.module, w.gives r)]).foldl Instance.after i = i' := by
    intro o i' hi'
    rw [Service.reload_objects] at hi'
    exact Option.map_eq_some_iff.mp hi'
  refine ⟨fun o i' hi' => ?_, fun o i' hm => ?_, fun l₁ l₂ o i₀ i' hl hi' => ?_⟩
  · obtain ⟨i, hi, -⟩ := hobj o i' hi'
    exact hinst ▸ h.live o i hi
  · rw [hlog] at hm
    exact hinst ▸ h.created o i' ((List.mem_append.mp hm).resolve_right (hnone o i'))
  · obtain ⟨i, hi, rfl⟩ := hobj o i' hi'
    obtain ⟨l₃, hl₃, rfl⟩ := split_append (hlog ▸ hl) (hnone o i₀)
    obtain ⟨hcls, hk⟩ := h.answers l₁ l₃ o i₀ i hl₃ hi
    have hv : ∀ k v, (w.tablesFor o [(r.module, w.gives r)]).foldl (current k) v =
        (versions i₀.cls.module o (w.updates r)).foldl (current k) v := by
      intro k v
      simp only [Service.tablesFor, List.filterMap_cons, List.filterMap_nil, Service.updates]
      rcases hg : w.gives r with _ | t | v
      · rfl
      · cases hm : w.module_list r.module with
        | none => simp [Service.registered, hm, versions]
        | some objects =>
          have hreg : w.registered r.module = objects := by rw [Service.registered, hm]; rfl
          by_cases hmem : o ∈ objects
          · by_cases hi₀ : r.module = i₀.cls.module
            · rw [← hi₀]
              simp [hreg, hmem, versions]
            · -- the object is of another module's class, and the table has nothing for it
              have hraw : t.raw k = none := by
                by_contra hraw
                exact hi₀ ((ho ⟨w.tables, t, k, hg, hraw⟩ o (hreg ▸ hmem) i hi).symm.trans
                  (congrArg Table.module hcls))
              simp [hreg, hmem, versions, hi₀, current, hraw]
          · simp [hreg, hmem, versions]
      · rfl
    refine ⟨(cls_foldl_after _ _).trans hcls, fun k => ?_⟩
    rw [resolve_foldl_after, hk k, versions_append, List.foldl_append, hv k]

/-- Instances keep their class. -/
theorem own_reload {r : Reload} {m : String} (h : w.Own m) : (w.reload r).1.Own m := by
  intro o ho i' hi'
  rw [Service.reload_registered] at ho
  rw [Service.reload_objects] at hi'
  obtain ⟨i, hi, rfl⟩ := Option.map_eq_some_iff.mp hi'
  exact (cls_foldl_after _ i).symm ▸ h o ho i hi

theorem reloadAll (rs : List Reload) (h : Kept w) (hnd : (rs.map Reload.module).Nodup)
    (ho : ∀ r ∈ rs, w.isLoaded r.module = true → r.Installs → w.Own r.module) :
    Kept (w.reloadAll rs).1 := by
  induction rs generalizing w with
  | nil => exact h
  | cons r rs ih =>
    obtain ⟨hn, hnd⟩ := List.nodup_cons.mp hnd
    rw [Service.reloadAll_cons]
    split
    · rename_i hl
      have hk := h.reload r (ho r List.mem_cons_self hl)
      split
      · refine ih hk hnd fun r' hr' hl' hin =>
          own_reload (ho r' (List.mem_cons_of_mem _ hr') ?_ hin)
        have hne : r'.module ≠ r.module := fun e => hn (e ▸ List.mem_map_of_mem hr')
        rwa [Service.reload_isLoaded w r hne] at hl'
      · exact hk
    · exact ih h hnd fun r' hr' => ho r' (List.mem_cons_of_mem _ hr')

theorem collect (h : Kept w) (o : Nat) : Kept (w.collect o) := by
  have hobj : ∀ o' i, (w.collect o).objects o' = some i → w.objects o' = some i := by
    intro o' i hi
    by_cases e : o' = o
    · subst e; simp [Service.collect] at hi
    · simpa [Service.collect, e] using hi
  exact ⟨fun o' i hi => h.live o' i (hobj o' i hi), h.created,
    fun l₁ l₂ o' i₀ i hl hi => h.answers l₁ l₂ o' i₀ i hl (hobj o' i hi)⟩

theorem exec (h : Kept w) (s : Step) (ha : Apart w s) : Kept (w.exec s) := by
  cases s with
  | import_ m file => exact h.import_ m file
  | new cls ctor eq => exact h.new cls ctor eq
  | hotfixFile call =>
    obtain ⟨ht, ho⟩ := ha
    by_cases hop : w.opened = true
    · rw [Service.exec, (Service.hotfixFile_of_open hop call).1]
      exact h.reloadAll _ ht.nodup (ho hop)
    · simpa [Service.exec, Service.hotfixFile, hop] using h
  | setOpen opened => exact h.of_eq rfl rfl rfl
  | collect o => exact h.collect o

end Kept

/-- In a run whose updates are all `Apart`, an instance that was made as `i₀` answers every name as
it did then, but for the versions of its own class's module that were installed in it since:
updates of its superclasses change nothing. -/
theorem override_kept {w : Service} (h : Machine.Reach Service.exec Apart Service.start w)
    (l₁ l₂ : List Event) (o : Nat) (i₀ i : Instance) (hl : w.log = l₁ ++ .created o i₀ :: l₂)
    (hi : w.objects o = some i) (k : String) :
    i.resolve k = (versions i₀.cls.module o l₂).foldl (current k) (i₀.resolve k) :=
  ((h.invariant Kept.start fun _ s hk ha => hk.exec s ha).answers l₁ l₂ o i₀ i hl hi).2 k

/-- Whatever class a registered object has, it gets the `getClassName` of the class that a file
makes, instead of its own. -/
theorem reload_overwrites {w : Service} {r : Reload} {classname : String} {super : Option Table}
    {body : List (String × Value)} {plain : ∀ kv ∈ body, kv.1 ∉ reserved} {o : Nat} {i : Instance}
    (hf : r.file = .class classname super body plain) (hb : "getClassName" ∉ body.map Prod.fst)
    (ho : o ∈ w.registered r.module) (hi : w.objects o = some i)
    (hk : isFunction (i.resolve "getClassName") = true) :
    ((w.reload r).1.objects o).bind (·.resolve "getClassName") =
      some (.func (.getClassName w.tables)) := by
  have hbody : ∀ (body : List (String × Value)) (t : Table), "getClassName" ∉ body.map Prod.fst →
      (body.foldl (fun t kv => t.set kv.1 kv.2) t).raw "getClassName" = t.raw "getClassName" := by
    intro body
    induction body with
    | nil => exact fun _ _ => rfl
    | cons kv body ih =>
      intro t hn
      rw [List.map_cons, List.mem_cons, not_or] at hn
      rw [List.foldl_cons, ih _ hn.2, Table.raw_set, if_neg hn.1]
  obtain ⟨t, ht, hraw⟩ : ∃ t, w.gives r = some (.table t) ∧
      t.raw "getClassName" = some (.func (.getClassName w.tables)) := by
    refine ⟨_, by rw [Service.gives, hf, File.value], ?_⟩
    rw [hbody body _ hb]
    simp only [class_, Table.raw_set]
    rw [if_neg (by decide), if_neg (by decide), if_pos trivial]
  rw [Service.reload_objects, hi, ht]
  simp [Service.tablesFor, ho, Instance.resolve_after, current, hk, hraw]

/-- A class and a subclass that overrides its method, each of its own module. -/
def creature (id : Nat) (hit : Nat) : Table :=
  (class_ id "Creature" "Creature" none).set "hit" (.func (.method hit))

def knight : Table := (class_ 1 "Knight" "Knight" (some (creature 0 0))).set "hit" (.func (.method 1))

/-- Both are imported, and an instance of the subclass is made. -/
def knightStart : Service :=
  ((Service.start.exec (.import_ "Creature" (.class "Creature" none [("hit", .func (.method 0))]
    (by decide)))).exec (.import_ "Knight" (.class "Knight" (some (creature 0 0))
    [("hit", .func (.method 1))] (by decide)))).exec (.new knight id unequal)

/-- The subclass is updated. -/
def knightUpdated : Service :=
  knightStart.exec (.hotfixFile (.single ⟨"Knight", .class "Knight" (some (creature 0 0))
    [("hit", .func (.method 2))] (by decide), fun _ => false⟩))

def knightInstance : Instance := ⟨knight, Function.update (fun _ => none) "class" (some (.table 1))⟩

theorem override_kept_sample :
    (knightUpdated.objects 0).bind (·.resolve "hit") = some (.func (.method 2)) := by
  have h₀ : Machine.Reach Service.exec Apart Service.start knightStart :=
    .step _ (.step _ (.step _ .init trivial) trivial) trivial
  have hown : ∀ o ∈ knightStart.registered "Knight",
      ((knightStart.objects o).all fun i => i.cls.module == "Knight") = true := by decide +kernel
  have h₁ : Machine.Reach Service.exec Apart Service.start knightUpdated := by
    refine .step _ h₀ ⟨trivial, fun _ r hr _ _ o ho i hi => ?_⟩
    cases List.mem_singleton.mp hr
    have := hown o ho
    rw [hi] at this
    simpa using this
  obtain ⟨i, hi⟩ := Option.isSome_iff_exists.mp
    (show (knightUpdated.objects 0).isSome by decide +kernel)
  rw [hi, Option.bind_some]
  exact (override_kept h₁ [] knightUpdated.log.tail 0 knightInstance i rfl hi "hit").trans
    (by decide +kernel)

/-- The superclass is updated, and the instance answers with its method. -/
theorem superclass_overwrites :
    ¬ ∀ w : Service, Machine.Reach Service.exec Legal Service.start w →
      ∀ l₁ l₂ o i₀ i, w.log = l₁ ++ .created o i₀ :: l₂ → w.objects o = some i →
      ∀ k, isFunction (i₀.cls.raw k) → (∃ t ∈ i₀.cls.ancestors, isFunction (t.raw k)) →
        i.resolve k = (versions i₀.cls.module o l₂).foldl (current k) (i₀.resolve k) := by
  intro h
  have hr : Machine.Reach Service.exec Legal Service.start (knightStart.exec
      (.hotfixFile (.single ⟨"Creature", .class "Creature" none [("hit", .func (.method 2))]
        (by decide), fun _ => false⟩))) :=
    .step _ (.step _ (.step _ (.step _ .init trivial) trivial) trivial) trivial
  generalize hw : knightStart.exec (.hotfixFile (.single ⟨"Creature", .class "Creature" none
    [("hit", .func (.method 2))] (by decide), fun _ => false⟩)) = w at hr
  have hi : (w.objects 0).bind (·.resolve "hit") = some (.func (.method 2)) := by
    rw [← hw]; decide +kernel
  have hv : versions "Knight" 0 w.log.tail = [] := by rw [← hw]; decide +kernel
  have hl : w.log = [] ++ .created 0 knightInstance :: w.log.tail := by rw [← hw]; rfl
  obtain ⟨i, ho⟩ : ∃ i, w.objects 0 = some i := by
    cases ho : w.objects 0 with
    | none => rw [ho] at hi; cases hi
    | some i => exact ⟨i, rfl⟩
  have hk := h w hr [] w.log.tail 0 knightInstance i hl ho "hit" (by decide +kernel)
    ⟨creature 0 0, List.mem_cons_self, by decide +kernel⟩
  rw [ho, Option.bind_some, hk, show knightInstance.cls.module = "Knight" from rfl, hv] at hi
  exact absurd hi (by decide +kernel)

end SkynetHotfix.Class
