import SkynetHotfix.Class.Methods
import SkynetHotfix.Class.Atomic
import SkynetHotfix.Lib.Last

/-!
# The commands of handlers after a hotfix

A handler's `register()` binds commands in a `MessageDispatch` to the methods
that it has at that time (`handler`), and `hotfixFile` calls it again once the
methods are patched. Nothing takes a binding away, and patching does not give
an object a method that it did not have: a command that the new version drops
runs the old method (`dropped_command_stays`), one that needs a new method runs
nothing. `handlers_rebound` says when the tables are those that fresh handlers
of the new version would have made.
-/

namespace SkynetHotfix.Class

open Function (update)
open Last

/-- What `handler(obj, method)` captures. -/
structure Handler where
  obj : Nat
  method : Option Value

/-- `tb_self_msg[msg_name]` of each dispatch. -/
abbrev Dispatches := Nat → String → Option Handler

/-- `MessageDispatch:registerSelf`; what `handler` returns is a function. -/
def registerSelf (tb_self_msg : Dispatches) (dispatch : Nat) (msg_name : String) (callback : Handler) :
    Dispatches :=
  update tb_self_msg dispatch (update (tb_self_msg dispatch) msg_name (some callback))

/-- What the code of the handlers does: the commands that a function binds when it is called as
`register()`, each with the method of `self` for it, and the dispatch that a handler was made
with. -/
structure Code where
  registers : Fn → List (String × String)
  message_dispatch : Nat → Nat

/-- What an object answers a name with. -/
abbrev Answers := String → Option Value

variable (code : Code)

/-- The commands that `object:register()` binds, if it is called:
`if object.register and type(object.register) == "function"`. -/
def commands (answers : Answers) : List (String × String) :=
  match answers "register" with
  | some (.func f) => code.registers f
  | _ => []

/-- `object:register()`, if it is called. -/
def register (obj : Nat) (answers : Answers) (tb_self_msg : Dispatches) : Dispatches :=
  (commands code answers).foldl (fun tb command =>
    registerSelf tb (code.message_dispatch obj) command.1 ⟨obj, answers command.2⟩) tb_self_msg

/-- `重新注册回调函数`: the objects in their order, those that are alive. -/
def registerAll (objects : List Nat) (answers : Nat → Option Answers) (tb_self_msg : Dispatches) :
    Dispatches :=
  objects.foldl (fun tb obj => match answers obj with
    | some answers => register code obj answers tb
    | none => tb) tb_self_msg

/-- The dispatch tables after `hotfixFile` of one module, of which no `register()` raises. -/
def Service.hotfixHandlers (w : Service) (r : Reload) (tb_self_msg : Dispatches) : Dispatches :=
  let w' := (w.hotfixFile (.single r)).1
  if (w.hotfixFile (.single r)).2 = .value true then
    registerAll code (w.registered r.module) (fun obj => (w'.objects obj).map Instance.resolve)
      tb_self_msg
  else tb_self_msg

/-- The tables that fresh handlers of the class make in place of the objects. -/
def Service.freshHandlers (w : Service) (t : Table) (objects : List Nat) (tb_self_msg : Dispatches) :
    Dispatches :=
  registerAll code objects (fun obj => (w.objects obj).map fun _ => (Instance.fresh t).resolve)
    fun dispatch msg_name => (tb_self_msg dispatch msg_name).filter fun callback =>
      callback.obj ∉ objects

/-! ## What is registered -/

/-- The method that an object with the answers binds a command to. -/
def bound (answers : Answers) (msg_name : String) : Option (Option Value) :=
  last (fun command => if command.1 = msg_name then some (answers command.2) else none)
    (commands code answers)

/-- The callback that an object with the answers leaves for a command of a dispatch. -/
def callback (answers : Nat → Option Answers) (dispatch : Nat) (msg_name : String) (obj : Nat) :
    Option Handler :=
  if code.message_dispatch obj = dispatch then
    (answers obj).bind fun answers => (bound code answers msg_name).map (⟨obj, ·⟩)
  else none

variable {code}

theorem register_apply (obj : Nat) (answers : Answers) (tb : Dispatches) (dispatch : Nat)
    (msg_name : String) : register code obj answers tb dispatch msg_name =
      (callback code (fun _ => some answers) dispatch msg_name obj).or (tb dispatch msg_name) := by
  unfold register callback bound
  rw [Option.bind_some]
  generalize commands code answers = l
  induction l generalizing tb with
  | nil => simp
  | cons command l ih =>
    rw [List.foldl_cons, ih, last_cons]
    by_cases hd : code.message_dispatch obj = dispatch
    · simp only [if_pos hd]
      by_cases hc : msg_name = command.1
      · subst hc
        cases last _ l <;> simp [registerSelf, hd]
      · have hc' : ¬ command.1 = msg_name := fun e => hc e.symm
        simp [registerSelf, hd, hc, hc']
    · have hd' : ¬ dispatch = code.message_dispatch obj := fun e => hd e.symm
      simp [hd, registerSelf, hd']

theorem registerAll_apply (objects : List Nat) (answers : Nat → Option Answers) (tb : Dispatches)
    (dispatch : Nat) (msg_name : String) :
    registerAll code objects answers tb dispatch msg_name =
      (last (callback code answers dispatch msg_name) objects).or (tb dispatch msg_name) := by
  unfold registerAll
  induction objects generalizing tb with
  | nil => rfl
  | cons obj objects ih =>
    rw [List.foldl_cons, ih, last_cons, Option.or_assoc]
    congr 1
    cases ha : answers obj with
    | none => simp [callback, ha]
    | some a =>
      simp only [register_apply]
      simp [callback, ha]

/-! ## After a hotfix -/

/-- What an instance answers once it is patched with the class: the class's own definitions, where
it answered with a function. -/
def Service.patched (w : Service) (t : Table) (obj : Nat) : Option Answers :=
  (w.objects obj).map fun i k => current k (i.resolve k) t

/-- What a fresh instance of the class in its place answers. -/
def Service.fresh (w : Service) (t : Table) (obj : Nat) : Option Answers :=
  (w.objects obj).map fun _ => (Instance.fresh t).resolve

/-- A command that fresh instances of the class bind is bound in the same way by the objects as they
are patched, or nowhere by them and was bound so before; and one that fresh instances do not bind
is bound by none of them, nor was it. -/
def Rebinds (code : Code) (w : Service) (t : Table) (objects : List Nat) (tb_self_msg : Dispatches) :
    Prop :=
  ∀ dispatch msg_name,
    (∀ c, last (callback code (w.fresh t) dispatch msg_name) objects = some c →
      last (callback code (w.patched t) dispatch msg_name) objects = some c ∨
        last (callback code (w.patched t) dispatch msg_name) objects = none ∧
          tb_self_msg dispatch msg_name = some c) ∧
    (last (callback code (w.fresh t) dispatch msg_name) objects = none →
      last (callback code (w.patched t) dispatch msg_name) objects = none ∧
        ∀ c, tb_self_msg dispatch msg_name = some c → c.obj ∉ objects)

theorem callback_obj {answers : Nat → Option Answers} {dispatch obj : Nat} {msg_name : String}
    {c : Handler} (h : callback code answers dispatch msg_name obj = some c) : c.obj = obj := by
  unfold callback at h
  split at h
  · cases ha : answers obj with
    | none => simp [ha] at h
    | some a =>
      rw [ha, Option.bind_some] at h
      obtain ⟨v, -, rfl⟩ := Option.map_eq_some_iff.mp h
      rfl
  · cases h

theorem callback_congr {answers answers' : Nat → Option Answers} {obj : Nat}
    (h : answers obj = answers' obj) (dispatch : Nat) (msg_name : String) :
    callback code answers dispatch msg_name obj = callback code answers' dispatch msg_name obj := by
  unfold callback
  rw [h]

/-- The tables after a hotfix. -/
theorem hotfixHandlers_apply {w : Service} {r : Reload} {t : Table}
    (h : (w.hotfixFile (.single r)).2 = .value true) (ht : w.gives r = some (.table t))
    (tb : Dispatches) (dispatch : Nat) (msg_name : String) :
    w.hotfixHandlers code r tb dispatch msg_name =
      (last (callback code (w.patched t) dispatch msg_name) (w.registered r.module)).or
        (tb dispatch msg_name) := by
  obtain ⟨t', ht', -, hobj⟩ := Service.hotfixFile_true h
  obtain rfl : t' = t := by simpa using ht'.symm.trans ht
  unfold Service.hotfixHandlers
  rw [if_pos h, registerAll_apply]
  congr 1
  refine last_congr fun obj ho => callback_congr ?_ _ _
  rw [hobj, if_pos ho, Service.patched, Option.map_map]
  exact congrArg (Option.map · _) (funext fun i => funext fun k => i.resolve_after t' k)

/-- After a hotfix of a module, the commands that the handlers registered for it bind run the methods
that these are patched with, and all others what they ran before; the dispatch tables are those
that fresh handlers of the new version would have made in their place just when these rebind. -/
theorem handlers_rebound (code : Code) {w : Service} {r : Reload}
    (h : (w.hotfixFile (.single r)).2 = .value true) (tb_self_msg : Dispatches) :
    ∃ t, w.gives r = some (.table t) ∧
      (∀ dispatch msg_name, w.hotfixHandlers code r tb_self_msg dispatch msg_name =
        (last (callback code (w.patched t) dispatch msg_name) (w.registered r.module)).or
          (tb_self_msg dispatch msg_name)) ∧
      (w.hotfixHandlers code r tb_self_msg =
          w.freshHandlers code t (w.registered r.module) tb_self_msg ↔
        Rebinds code w t (w.registered r.module) tb_self_msg) := by
  obtain ⟨t, ht, -, -⟩ := Service.hotfixFile_true h
  refine ⟨t, ht, hotfixHandlers_apply h ht tb_self_msg, ?_⟩
  generalize hobjects : w.registered r.module = objects
  have hpt : w.hotfixHandlers code r tb_self_msg =
      w.freshHandlers code t objects tb_self_msg ↔ ∀ dispatch msg_name,
        (last (callback code (w.patched t) dispatch msg_name) objects).or
            (tb_self_msg dispatch msg_name) =
          (last (callback code (w.fresh t) dispatch msg_name) objects).or
            ((tb_self_msg dispatch msg_name).filter fun callback => callback.obj ∉ objects) := by
    rw [funext_iff]
    refine forall_congr' fun dispatch => ?_
    rw [funext_iff]
    refine forall_congr' fun msg_name => ?_
    rw [hotfixHandlers_apply h ht, hobjects, Service.freshHandlers, registerAll_apply]
    rfl
  rw [hpt]
  unfold Rebinds
  refine forall_congr' fun dispatch => forall_congr' fun msg_name => ?_
  have hown : ∀ c, last (callback code (w.patched t) dispatch msg_name) objects = some c →
      c.obj ∈ objects := by
    intro c hc
    obtain ⟨obj, hobj, hcb⟩ := exists_of_last hc
    rwa [callback_obj hcb]
  generalize last (callback code (w.patched t) dispatch msg_name) objects = now at hown
  generalize last (callback code (w.fresh t) dispatch msg_name) objects = fresh
  generalize tb_self_msg dispatch msg_name = old
  cases fresh with
  | some c => simp [Option.or_eq_some_iff]
  | none =>
    rw [Option.none_or]
    cases now with
    | none =>
      cases old with
      | none => simp
      | some c => by_cases hc : c.obj ∈ objects <;> simp [Option.filter, hc]
    | some c =>
      -- what the objects bind is theirs, and so not what is left of the old table
      refine iff_of_false (fun he => ?_) fun he => by cases (he.2 rfl).1
      rw [Option.some_or] at he
      have hno : c.obj ∉ objects := by simpa using (Option.mem_filter_iff.mp he.symm).2
      exact hno (hown c rfl)

/-- Handlers that answered `register` and the methods for its commands with functions, which the new
class defines itself, rebind, if they have bound no other commands. -/
theorem rebinds_of_methods {w : Service} {t : Table} {objects : List Nat} {tb_self_msg : Dispatches}
    (hmethods : ∀ obj ∈ objects, ∀ i, w.objects obj = some i → ∀ k,
      (k = "register" ∨ k ∈ (commands code t.lookup).map Prod.snd) →
        isFunction (i.resolve k) ∧ (t.raw k).isSome)
    (hold : ∀ dispatch msg_name c, tb_self_msg dispatch msg_name = some c → c.obj ∈ objects →
      code.message_dispatch c.obj = dispatch ∧ (w.objects c.obj).isSome ∧
        msg_name ∈ (commands code t.lookup).map Prod.fst) :
    Rebinds code w t objects tb_self_msg := by
  have hsame : ∀ dispatch msg_name, last (callback code (w.patched t) dispatch msg_name) objects =
      last (callback code (w.fresh t) dispatch msg_name) objects := by
    intro dispatch msg_name
    refine last_congr fun obj ho => ?_
    unfold callback Service.patched Service.fresh
    cases hi : w.objects obj with
    | none => rfl
    | some i =>
      have hk : ∀ k, (k = "register" ∨ k ∈ (commands code t.lookup).map Prod.snd) →
          current k (i.resolve k) t = t.lookup k := by
        intro k hk
        obtain ⟨hf, hr⟩ := hmethods obj ho i hi k hk
        obtain ⟨v, hv⟩ := Option.isSome_iff_exists.mp hr
        rw [current, if_pos hf, hv, Option.some_or, Table.lookup_of_raw hv]
      have hc : commands code (fun k => current k (i.resolve k) t) = commands code t.lookup := by
        unfold commands
        simp only [hk "register" (.inl rfl)]
      have hb : bound code (fun k => current k (i.resolve k) t) msg_name =
          bound code t.lookup msg_name := by
        unfold bound
        rw [hc]
        refine last_congr fun command hm => ?_
        simp only [hk command.2 (.inr (List.mem_map_of_mem hm))]
      simp only [Option.map_some, Option.bind_some, hb]
      rfl
  intro dispatch msg_name
  rw [hsame]
  refine ⟨fun c hc => .inl hc, fun hn => ⟨hn, fun c hc hobj => ?_⟩⟩
  obtain ⟨hd, hlive, hm⟩ := hold dispatch msg_name c hc hobj
  obtain ⟨i, hi⟩ := Option.isSome_iff_exists.mp hlive
  obtain ⟨command, hcommand, rfl⟩ := List.mem_map.mp hm
  have hnone := last_eq_none.mp hn c.obj hobj
  rw [callback, if_pos hd, Service.fresh, hi, Option.map_some, Option.bind_some,
    Option.map_eq_none_iff, bound, last_eq_none] at hnone
  have := hnone command hcommand
  simp at this

/-- A handler's class, with the functions of its `register`, `start` and `hotfixFile`. -/
def messageHandler (id : Nat) (register start hotfixFile : Nat) : Table :=
  (((class_ id "MessageHandler" "MessageHandler" none).set "register" (.func (.method register))).set
    "start" (.func (.method start))).set "hotfixFile" (.func (.method hotfixFile))

/-- `register` binds both commands in the versions `0` and `10`, and only `start` in version `20`. -/
def sampleCode : Code where
  registers f :=
    if f = .method 0 ∨ f = .method 10 then [("start", "start"), ("hotfix", "hotfixFile")]
    else if f = .method 20 then [("start", "start")] else []
  message_dispatch _ := 0

/-- The file of a version. -/
def handlerFile (register start hotfixFile : Nat) : File :=
  .class "MessageHandler" none [("register", .func (.method register)),
    ("start", .func (.method start)), ("hotfixFile", .func (.method hotfixFile))] (by simp [reserved])

/-- The first version is imported, and a handler is made. -/
def handlerStart : Service :=
  (Service.start.exec (.import_ "MessageHandler" (handlerFile 0 1 2))).exec
    (.new (messageHandler 0 0 1 2) id unequal)

/-- What the handler bound when it was made. -/
def handlerTables : Dispatches :=
  register sampleCode 0 (messageHandler 0 0 1 2).lookup fun _ _ => none

/-- What it bound is the two commands. -/
theorem handlerTables_some {dispatch : Nat} {msg_name : String} {c : Handler}
    (h : handlerTables dispatch msg_name = some c) :
    c.obj = 0 ∧ dispatch = 0 ∧ msg_name ∈ ["start", "hotfix"] := by
  rw [handlerTables, register_apply, Option.or_none] at h
  refine ⟨callback_obj h, ?_⟩
  unfold callback at h
  split at h
  · next hd =>
    obtain ⟨v, hv, -⟩ := Option.map_eq_some_iff.mp h
    obtain ⟨command, hm, hc⟩ := exists_of_last hv
    have hcommands : commands sampleCode (messageHandler 0 0 1 2).lookup =
        [("start", "start"), ("hotfix", "hotfixFile")] := by decide +kernel
    rw [hcommands] at hm
    refine ⟨hd.symm, ?_⟩
    split at hc
    · next he =>
      rw [← he]
      exact List.mem_map_of_mem hm
    · cases hc
  · cases h

theorem handlers_rebound_sample :
    ∃ t, handlerStart.gives ⟨"MessageHandler", handlerFile 10 11 12, fun _ => false⟩ = some (.table t) ∧
      handlerStart.hotfixHandlers sampleCode ⟨"MessageHandler", handlerFile 10 11 12, fun _ => false⟩
          handlerTables =
        handlerStart.freshHandlers sampleCode t (handlerStart.registered "MessageHandler")
          handlerTables := by
  obtain ⟨t, ht, -, hiff⟩ := @handlers_rebound sampleCode handlerStart
    ⟨"MessageHandler", handlerFile 10 11 12, fun _ => false⟩ (by decide +kernel) handlerTables
  refine ⟨t, ht, hiff.mpr ?_⟩
  have hnew : handlerStart.gives ⟨"MessageHandler", handlerFile 10 11 12, fun _ => false⟩ =
      some (.table (messageHandler 1 10 11 12)) := rfl
  obtain rfl : messageHandler 1 10 11 12 = t := by simpa using hnew.symm.trans ht
  have hobjects : handlerStart.registered "MessageHandler" = [0] := by decide +kernel
  have hcommands : commands sampleCode (messageHandler 1 10 11 12).lookup =
      [("start", "start"), ("hotfix", "hotfixFile")] := by decide +kernel
  have hanswers : ∀ k ∈ ["register", "start", "hotfixFile"],
      ((handlerStart.objects 0).all fun i => isFunction (i.resolve k)) = true ∧
        ((messageHandler 1 10 11 12).raw k).isSome = true := by decide +kernel
  refine rebinds_of_methods (fun obj ho i hi k hk => ?_) fun dispatch msg_name c hc _ => ?_
  · rw [show obj = 0 by simpa [hobjects] using ho] at hi
    obtain ⟨hf, hr⟩ := hanswers k (by simpa [hcommands] using hk)
    rw [hi] at hf
    exact ⟨hf, hr⟩
  · obtain ⟨hobj, hd, hm⟩ := handlerTables_some hc
    rw [hobj, hcommands]
    exact ⟨hd.symm, by decide +kernel, hm⟩

/-- The new version drops the command `hotfix`: it goes on to run the old method. -/
theorem dropped_command_stays :
    (handlerStart.hotfixFile (.single ⟨"MessageHandler", handlerFile 20 21 22, fun _ => false⟩)).2 =
        .value true ∧
      (handlerStart.hotfixHandlers sampleCode ⟨"MessageHandler", handlerFile 20 21 22, fun _ => false⟩
        handlerTables 0 "hotfix").bind Handler.method = some (.func (.method 2)) ∧
      (handlerStart.freshHandlers sampleCode (messageHandler 1 20 21 22)
        (handlerStart.registered "MessageHandler") handlerTables 0 "hotfix").isNone :=
  ⟨by decide +kernel, by decide +kernel, by decide +kernel⟩

end SkynetHotfix.Class
