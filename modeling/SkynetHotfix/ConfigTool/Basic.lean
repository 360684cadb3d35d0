import Mathlib.Data.List.AList

/-!
# The tool for shared configuration

`common/conf/configtool.lua`: the load phase, in which load functions read files
and share what they make of them, and `hot_load`, which calls a load function
again when one of its files has another time. The time of a file is what the
command FILETIME of skynet answers (`skynet_command`); a file is looked at once
in a round.
-/

namespace SkynetHotfix.ConfigTool

variable {Fn File Config : Type}

/-- `cmd_funcs` of `skynet_server.c` -/
def cmd_funcs : List String :=
  ["TIMEOUT", "REG", "QUERY", "NAME", "EXIT", "KILL", "LAUNCH", "GETENV", "SETENV", "STARTTIME",
    "ABORT", "MONITOR", "STAT", "LOGON", "LOGOFF", "SIGNAL"]

/-- `skynet_command`, where `func` is what the function of a name returns. -/
def skynet_command (func : String → File → Option String) (cmd : String) (param : File) :
    Option String :=
  match cmd_funcs.find? (fun name => name == cmd) with
  | some name => func name param
  | none => none

/-- A call of `sharedata`. -/
inductive Shared (Config : Type)
  | new (share_name : String) (config : Config)
  | update (share_name : String) (config : Config)

/-- The locals of the module, what the functions of skynet's commands return, whether `hot_load`
runs, and what went to `sharedata`. -/
structure State (Fn File Config : Type) where
  func : String → File → Option String
  init : Bool
  file_list : List (File × Option String)
  file_dic : AList fun _ : Fn => List (File × Option String)
  alter : List Fn
  running : Bool
  sharedata : List (Shared Config)

/-- The module as it is loaded. -/
def initial (func : String → File → Option String) : State Fn File Config where
  func := func
  init := true
  file_list := []
  file_dic := ∅
  alter := []
  running := false
  sharedata := []

namespace State

/-- `filetime` -/
def filetime (st : State Fn File Config) (file : File) : Option String :=
  skynet_command st.func "FILETIME" file

/-- `config_mgr.share_new`, called by `share_fun`. -/
def share_new [DecidableEq Fn] (st : State Fn File Config) (share_fun : Fn) (share_name : String)
    (config : Config) : State Fn File Config :=
  if st.init then
    { st with
      file_dic := st.file_dic.insert share_fun st.file_list
      file_list := []
      sharedata := st.sharedata ++ [.new share_name config] }
  else { st with sharedata := st.sharedata ++ [.update share_name config] }

/-- `config_mgr.begin` -/
def begin (st : State Fn File Config) : State Fn File Config := { st with file_list := [] }

/-- `file_montior` -/
def file_montior (st : State Fn File Config) (file : File) : State Fn File Config :=
  if st.init then { st with file_list := st.file_list ++ [(file, st.filetime file)] } else st

/-- `config_mgr.finish` -/
def finish (st : State Fn File Config) : State Fn File Config :=
  { st with init := false, running := true }

end State

/-! ## Loading -/

/-- What load functions do: a share, or a file that is opened, read and handed to a callback. What
the callback does ends where it raises. -/
inductive Load (Fn File Config : Type)
  | share_new (share_fun : Fn) (share_name : String) (config : Config)
  | load_lua_file (path : File) (callback : List (Load Fn File Config))

mutual

def Load.exec [DecidableEq Fn] : Load Fn File Config → State Fn File Config → State Fn File Config
  | .share_new share_fun share_name config, st => st.share_new share_fun share_name config
  | .load_lua_file path callback, st => (Load.execs callback st).file_montior path

def Load.execs [DecidableEq Fn] :
    List (Load Fn File Config) → State Fn File Config → State Fn File Config
  | [], st => st
  | load :: loads, st => Load.execs loads (load.exec st)

end

/-! ## Hot loading -/

/-- One turn of the loop of `hot_load`: the share functions that raise in it, and the order in which
`pairs` meets the altered ones. -/
structure Round (Fn : Type) where
  raises : Fn → Bool
  order : List Fn → List Fn
  order_perm : ∀ l, (order l).Perm l

/-- The loop over `file_dic`. -/
def State.scan [DecidableEq Fn] (st : State Fn File Config) : State Fn File Config :=
  { st with
    file_dic := ⟨st.file_dic.entries.map fun entry =>
        ⟨entry.1, entry.2.map fun file => (file.1, st.filetime file.1)⟩, by
      rw [List.NodupKeys, List.keys, List.map_map]
      exact st.file_dic.nodupKeys⟩
    alter := (st.file_dic.entries.filter fun entry =>
      entry.2.any fun file => file.2 ≠ st.filetime file.1).foldl
        (fun alter entry => if entry.1 ∈ alter then alter else alter ++ [entry.1]) st.alter }

/-- The loop over `alter`: the functions that are called, and whether the last of them raises. -/
def callAll (raises : Fn → Bool) : List Fn → List Fn × Bool
  | [] => ([], false)
  | share_fun :: funs =>
    if raises share_fun then ([share_fun], true)
    else
      let (calls, raised) := callAll raises funs
      (share_fun :: calls, raised)

/-- A turn of `hot_load`, with the share functions it calls. An error ends the loop. -/
def State.hot_load [DecidableEq Fn] (st : State Fn File Config) (round : Round Fn) :
    List Fn × State Fn File Config :=
  if st.running then
    let st := st.scan
    let (calls, raised) := callAll round.raises (round.order st.alter)
    (calls, if raised then { st with running := false } else { st with alter := [] })
  else ([], st)

end SkynetHotfix.ConfigTool
