import Mathlib.Data.List.AList

/-!
# Classes, instances and modules

`class` and `import` of `common/base/luaext.lua`, and `addObject` of
`common/Hotfix.lua`: what a service with `global.hotfix` set knows of its
modules, of the classes they return and of the live instances.

Nothing writes to a class after its file has run, except `import`, which sets
`__cmodule_name`. So a class is a value here (`Table`), with its superclass in
it, and `Service.cmodule_name` holds what `import` sets, by the identity of the
table. A class that replaces its own `__index` is not modelled, nor the branch
of `class` for native objects. What a class has for `__eq` is code of its own:
whoever calls `new` gives its answers.
-/

namespace SkynetHotfix.Class

open Function (update)

/-- A function, by the closure that it is: one that `class` makes for the table `cls`, or one of
some file. -/
inductive Fn
  | ctor (cls : Nat)
  | getClassName (cls : Nat)
  | new (cls : Nat)
  | method (id : Nat)
deriving DecidableEq

/-- What a field holds; tables by their identity. -/
inductive Value
  | func (f : Fn)
  | table (id : Nat)
  | str (s : String)
  | num (n : Int)
  | bool (b : Bool)
deriving DecidableEq

def Value.truthy : Value → Bool
  | .bool b => b
  | _ => true

/-- `type(v) == "function"`, which a `nil` is not. -/
def isFunction : Option Value → Bool
  | some (.func _) => true
  | _ => false

/-- The raw fields of a table, in the order in which `pairs` meets them. -/
abbrev Fields := AList fun _ : String => Value

/-- A table that a file returns: its identity, the module whose file made it, its raw fields, and
what its metatable's `__index` is. -/
inductive Table
  | root (id : Nat) (module : String) (fields : Fields)
  | sub (id : Nat) (module : String) (fields : Fields) (super : Table)

namespace Table

def id : Table → Nat
  | root id _ _ | sub id _ _ _ => id

def module : Table → String
  | root _ m _ | sub _ m _ _ => m

def fields : Table → Fields
  | root _ _ fs | sub _ _ fs _ => fs

def super : Table → Option Table
  | root .. => none
  | sub _ _ _ s => some s

/-- `rawget(t, k)` -/
def raw (t : Table) (k : String) : Option Value := t.fields.lookup k

/-- `t[k]` -/
def lookup : Table → String → Option Value
  | root _ _ fs, k => AList.lookup k fs
  | sub _ _ fs s, k => (AList.lookup k fs).or (s.lookup k)

/-- The superclasses, the nearest first. -/
def ancestors : Table → List Table
  | root .. => []
  | sub _ _ _ s => s :: s.ancestors

/-- `t[k] = v`, in the file that makes `t`. -/
def set (k : String) (v : Value) : Table → Table
  | root id m fs => root id m (fs.insert k v)
  | sub id m fs s => sub id m (fs.insert k v) s

theorem raw_set (t : Table) (k k' : String) (v : Value) :
    (t.set k v).raw k' = if k' = k then some v else t.raw k' := by
  have h : ∀ fs : Fields, (fs.insert k v).lookup k' = if k' = k then some v else fs.lookup k' := by
    intro fs
    split <;> rename_i e
    · subst e; exact AList.lookup_insert fs
    · exact AList.lookup_insert_ne e
  cases t <;> exact h _

end Table

/-- `class(classname, super)` for a Lua class. -/
def class_ (id : Nat) (module classname : String) (super : Option Table) : Table :=
  let cls := match super with
    | some s => (Table.sub id module ∅ s).set "super" (.table s.id)
    | none => (Table.root id module ∅).set "ctor" (.func (.ctor id))
  let cls := cls.set "__cname" (.str classname)
  let cls := cls.set "__ctype" (.num 2)
  let cls := cls.set "__index" (.table id)
  let cls := cls.set "getClassName" (.func (.getClassName id))
  let cls := cls.set "new" (.func (.new id))
  cls.set "New" (.func (.new id))

/-- What `require` returns and `package.loaded` holds. -/
inductive Module
  | table (t : Table)
  | other (v : Value)

def Module.truthy : Module → Bool
  | .table _ => true
  | .other v => v.truthy

/-- The fields that make a class what `class` made it. -/
def reserved : List String := ["__index", "__newindex", "super", "__cmodule_name"]

/-- What the file of a module does when it is loaded: it is not found, does not compile or raises;
it returns something that there is already, or nothing; or it makes a class and assigns to it. -/
inductive File
  | raises
  | returns (v : Option Module)
  | class (classname : String) (super : Option Table) (body : List (String × Value))
      (plain : ∀ kv ∈ body, kv.1 ∉ reserved)

/-- `setmetatable({}, cls)` and its own fields. -/
structure Instance where
  cls : Table
  own : String → Option Value

/-- `object[k]` -/
def Instance.resolve (i : Instance) (k : String) : Option Value := (i.own k).or (i.cls.lookup k)

/-- What a run is remembered by. -/
inductive Event
  | created (object : Nat) (i : Instance)
  | updated (module : String) (t : Table) (objects : List Nat)

/-- A service: `package.loaded`, `global.hotfix` with its `open` and `module_list`, the classes
with their `__cmodule_name`s, and the instances that are alive. -/
structure Service where
  opened : Bool
  module_list : String → Option (List Nat)
  loaded : String → Option Module
  tables : Nat
  cmodule_name : Nat → Option String
  instances : Nat
  objects : Nat → Option Instance
  log : List Event

namespace Service

/-- A service in which nothing is loaded. -/
def start : Service where
  opened := true
  module_list := fun _ => none
  loaded := fun _ => none
  tables := 0
  cmodule_name := fun _ => none
  instances := 0
  objects := fun _ => none
  log := []

/-- `require(name)`, where its file is `file` if it is to be loaded; `none` where it raises. -/
def require (w : Service) (name : String) (file : File) : Service × Option Module :=
  match (w.loaded name).filter Module.truthy with
  | some v => (w, some v)
  | none =>
    match file with
    | .raises => (w, none)
    | .returns v =>
      let v := (v.or (w.loaded name)).getD (.other (.bool true))
      ({ w with loaded := update w.loaded name (some v) }, some v)
    | .class classname super body _ =>
      let t := body.foldl (fun t kv => t.set kv.1 kv.2) (class_ w.tables name classname super)
      ({ w with tables := w.tables + 1, loaded := update w.loaded name (some (.table t)) },
        some (.table t))

/-- `import(module_name)`; what is not a table has no `__cname` to look at. -/
def import_ (w : Service) (module_name : String) (file : File) : Service :=
  match w.require module_name file with
  | (w, some (.table t)) =>
    if ((t.lookup "__cname").any Value.truthy) then
      { w with cmodule_name := update w.cmodule_name t.id (some module_name) }
    else w
  | (w, _) => w

/-- `t.__cmodule_name`, which is inherited like any other field. -/
def moduleName (w : Service) : Table → Option String
  | .root id _ _ => w.cmodule_name id
  | .sub id _ _ s => (w.cmodule_name id).or (w.moduleName s)

/-- `Hotfix:addObject`. Its loop compares by `==`, which calls `__eq` for two tables: `eq` is what
that says of each object and the new one. -/
def addObject (w : Service) (module_name : Option String) (object : Nat) (eq : Nat → Bool) :
    Service :=
  match module_name with
  | none => w
  | some m =>
    if w.opened then
      let objects := (w.module_list m).getD []
      let need_add := !objects.any fun obj => obj = object || eq obj
      let objects := if need_add then objects ++ [object] else objects
      { w with module_list := update w.module_list m (some objects) }
    else w

/-- The loop of `new` over the superclasses. It registers under the name of the first each time:
`super` is the argument of `class`. The calls of `addObject` are told apart by how many superclasses
are left. -/
def addSupers (w : Service) (super : Table) (object : Nat) (eq : Nat → Nat → Bool) :
    List Table → Service
  | [] => w
  | super_class :: rest =>
    let w := if (w.moduleName super_class).isSome then
      w.addObject (w.moduleName super) object (eq rest.length) else w
    w.addSupers super object eq rest

/-- `cls.new(...)`, where `ctor` is what the constructor makes of the fields of the instance, and
`eq` what `__eq` says in the calls of `addObject`. -/
def new (w : Service) (cls : Table) (ctor : (String → Option Value) → String → Option Value)
    (eq : Nat → Nat → Bool) : Service :=
  let object := w.instances
  let own := ctor (update (fun _ => none) "class" (some (.table cls.id)))
  let i : Instance := ⟨cls, own⟩
  let w := { w with
    instances := object + 1
    objects := update w.objects object (some i)
    log := w.log ++ [Event.created object i] }
  let w := w.addObject (match own "__cmodule_name" with
    | some (.str m) => some m
    | some _ => none
    | none => w.moduleName cls) object (eq cls.ancestors.length)
  match cls.super with
  | none => w
  | some super => w.addSupers super object eq cls.ancestors

/-- An instance that nothing refers to is collected; the lists of `module_list` are weak. -/
def collect (w : Service) (object : Nat) : Service :=
  { w with
    objects := update w.objects object none
    module_list := fun m => (w.module_list m).map (·.filter (· ≠ object)) }

end Service

end SkynetHotfix.Class
