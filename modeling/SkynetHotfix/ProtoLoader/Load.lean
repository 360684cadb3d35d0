import SkynetHotfix.Pbc.Parser

/-!
# Loading proto files

`ProtoLoader:init` and `ProtoLoader:load` of `common/ProtoLoader.lua`.
-/

namespace SkynetHotfix.ProtoLoader

open Pbc (Fault Result File MessageType Disk State)

/-- A message for `parserMessageType`, which reads its fields with `ipairs`. -/
def protoMessage (m : MessageType) : Result ProtoMessage :=
  match m.field with
  | none => .error (some .ipairs_nil)
  | some field => .ok ⟨m.name, field.map Pbc.Field.proto⟩

def protoPackage (file : File) : Result ProtoPackage := do
  let message_type ← file.message_type.mapM protoMessage
  .ok ⟨file.package.map Pbc.Typename.val, some file.enum_type, some message_type⟩

variable {Env : Type} (pb : Env → List File → Option Env) (disk : Disk)

/-- `ProtoLoader:load`: `log.error` raises. -/
def load (proto_file : List String) (proto_path : String) (s : State Env) :
    Result (List File × State Env) :=
  match Pbc.register pb disk proto_file proto_path s with
  | .ok result => .ok result
  | .error _ => .error (some .log)

/-- What `init` has made of the files: the tables of the packages, directory by directory. -/
structure Loaded (Env : Type) where
  state : State Env
  message_package : List (List Package)

/-- One directory in the loop of `init`. -/
def initDir (dir_list : String → List String) (path : String) (l : Loaded Env) (dir : String) :
    Result (Loaded Env) := do
  let dir_path := path ++ dir
  let (proto_data, state) ← load pb disk (dir_list dir_path) dir_path l.state
  let packages ← proto_data.mapM protoPackage
  .ok ⟨state, l.message_package ++ [parserPackage (some packages)]⟩

/-- The path without a `/` at its end. -/
def stripSlash (path : String) : String :=
  if path.toList.getLast? = some '/' then String.ofList path.toList.dropLast else path

/-- `sharedata.new`, with the names in the pool of `sharedatad`: `newobj` asserts that there is
nothing of this name. -/
def sharedataNew (pool : List String) (name : String) : Option (List String) :=
  if name ∈ pool then none else some (name :: pool)

/-- What `parserMessagePackage` gives to `sharedata`. -/
def sharedNames : List String := ["message_cmd", "message_map", "message_name_map"]

/-- `ProtoLoader:init`, with the tables that it gives to `sharedata`. -/
def init (dir_list : String → List String) (path : String) (dirs : Option (List String))
    (s : State Env) (pool : List String) : Result (Loaded Env × Maps × List String) := do
  let path := if dirs = none then stripSlash path else path
  let loaded ← (dirs.getD [""]).foldlM (initDir pb disk dir_list path) ⟨s, []⟩
  match parserMessagePackage loaded.message_package with
  | none => .error (some .log)
  | some maps =>
    match sharedNames.foldlM sharedataNew pool with
    | none => .error (some .sharedata)
    | some pool => .ok (loaded, maps, pool)

end SkynetHotfix.ProtoLoader
