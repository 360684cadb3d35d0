import Mathlib.Data.List.AList

/-!
# Dispatchers of a service's messages

The dispatcher of `help.lua`, `dispatch_command`, and the one of
`MessageDispatch.lua`, `dispatchMessage`, with the wrappers and loggers they
call, and what `skynet.lua` makes of a reply and of an error: a message is
dispatched in a coroutine of its own (`raw_dispatch_message`), and what is sent
to its caller is in the `replies`.

`help.lua` requires `base/logger.lua`, which hands an error to the console and
to another node; `MessageDispatch.lua` requires `Logger.lua`, which raises.
-/

namespace SkynetHotfix.Dispatch

/-- Values of messages: what is neither of these is `other`. -/
inductive Value
  | nil
  | bool (b : Bool)
  | num (n : Int)
  | str (s : String)
  | table (fields : List (String × Value))
  | other (id : Nat)

namespace Value

def isNil : Value → Bool
  | nil => true
  | _ => false

/-- What counts as true in a condition. -/
def truthy : Value → Bool
  | nil => false
  | bool b => b
  | _ => true

/-- `v == s` -/
def eqStr (v : Value) (s : String) : Bool :=
  match v with
  | str s' => s' == s
  | _ => false

def isTable : Value → Bool
  | table _ => true
  | _ => false

/-- `v[key]` of a table. -/
def field (v : Value) (key : String) : Value :=
  match v with
  | table fields => (fields.lookup key).getD nil
  | _ => nil

/-- `v[key] = nil` of a table. -/
def clear (v : Value) (key : String) : Value :=
  match v with
  | table fields => table (fields.filter fun entry => entry.1 != key)
  | v => v

end Value

/-! ## The coroutine of a message -/

/-- What is sent back to a caller. -/
inductive Reply
  | response (values : List Value)
  | error

/-- A message, as `raw_dispatch_message` notes it for its coroutine. -/
structure Co where
  session : Int
  session_response : Bool
  replies : List Reply

/-- An error raised in the coroutine, or in the `suspend` it yielded to, which does not resume it. -/
inductive Abort
  | raised (err : Value)
  | suspended

/-- What runs in the coroutine. -/
abbrev Run := ExceptT Abort (StateM Co)

/-- What the code relies on: each may be whatever it is. -/
structure Env where
  /-- Outcome of `cluster.send`, for a logger's line. -/
  send : String → Except Value Unit
  /-- Line of a logger. -/
  line : List Value → String
  /-- `tostring` of what is neither a string nor a number. -/
  tostring : Value → String
  /-- `debug.traceback` of a message. -/
  stack : Option String → String
  /-- What `skynet.pack` takes. -/
  packs : List Value → Bool
  /-- What is not too large for `c.send`. -/
  fits : List Value → Bool

/-- `error(err)` -/
def raise {α : Type} (err : Value) : Run α := throw (.raised err)

/-- A call that returns or raises, and sends nothing. -/
def call {α : Type} : Except Value α → Run α
  | .ok a => pure a
  | .error err => raise err

/-- `skynet.retpack`, with what `suspend` does at `"RETURN"`. -/
def retpack (env : Env) (values : List Value) : Run Unit := do
  if !env.packs values then raise (.str "type not supported to serialize")
  let co ← get
  if co.session = 0 then pure ()
  else if co.session_response then throw .suspended
  else
    let reply := if env.fits values then .response values else .error
    set { co with session_response := true, replies := co.replies ++ [reply] }

/-- What `suspend` does with an error of the coroutine. -/
def Co.fail (co : Co) : Co :=
  if co.session ≠ 0 then { co with replies := co.replies ++ [.error] } else co

/-- `raw_dispatch_message`, for a `dispatch` function: what was sent to the caller. -/
def raw_dispatch_message (dispatch : Run Unit) (session : Int) : List Reply :=
  let (result, co) := dispatch.run.run ⟨session, false, []⟩
  match result with
  | .error (.raised _) => co.fail.replies
  | _ => co.replies

/-! ## Loggers -/

inductive Mode
  | trace
  | debug
  | info
  | warn
  | error
  | fatal
  deriving DecidableEq

/-- `modes` of `Logger.lua`: where a mode stands. -/
def Logger.level : Mode → Nat
  | .trace => 1
  | .debug => 2
  | .info => 3
  | .warn => 4
  | .error => 5
  | .fatal => 6

/-- `modes` of `base/logger.lua`. -/
def logger.level : Mode → Nat
  | .trace => 1
  | .info => 2
  | .debug => 3
  | .warn => 4
  | .error => 5
  | .fatal => 6

/-- `#msg_tab`: up to the last value that is not `nil`. -/
def msg_num (msg_tab : List Value) : Nat := (msg_tab.reverse.dropWhile Value.isNil).length

/-- `log[x.name]` of `base/logger.lua`. -/
def logger.log (env : Env) (x : Mode) (msg_tab : List Value) : Except Value Unit :=
  if logger.level x < logger.level .debug then pure ()
  else if msg_num msg_tab = 0 then pure ()
  else env.send (env.line msg_tab)

/-- `log[x.name]` of `Logger.lua`. -/
def Logger.log (env : Env) (x : Mode) (msg_tab : List Value) : Except Value Unit :=
  if Logger.level x < Logger.level .debug then pure ()
  else if msg_num msg_tab = 0 then pure ()
  else if x = .error then throw (.str (env.line msg_tab))
  else
    match env.send (env.line msg_tab) with
    | .ok _ => pure ()
    -- `log.error` with the result, which raises
    | .error result => throw (.str (env.line [.str "logger.lua send faild:", result]))

/-! ## Protected calls -/

/-- A function as a command: what it returns, or raises. What cannot be called raises. -/
abbrev Callback := List Value → Except Value (List Value)

/-- `debug.traceback` of an error. -/
def traceback (env : Env) : Value → Value
  | .nil => .str (env.stack none)
  | .num n => .str (env.stack (some (toString n)))
  | .str s => .str (env.stack (some s))
  | err => err

def tostring (env : Env) : Value → String
  | .str s => s
  | .num n => toString n
  | v => env.tostring v

/-- `x_pcall` -/
def x_pcall (env : Env) (f : Callback) (args : List Value) : Except Value (List Value) :=
  match f args with
  | .ok results => .ok results
  | .error err => .error (traceback env err)

/-- `result, ...` of what was returned: `nil` if that was nothing. -/
def atLeastOne (results : List Value) : List Value := results.headD .nil :: results.tail

/-- `xx_pcall` -/
def xx_pcall (env : Env) (f : Callback) (args : List Value) : Except Value (List Value) :=
  match x_pcall env f args with
  | .ok results => pure (atLeastOne results)
  | .error result => do
    logger.log env .error [.str "xx_pcall faild:", result]
    pure [result]

/-- `f_error` with an error number and a text that are there and no more arguments. -/
def f_error (env : Env) (msg : Option String) (err_no : Int) (format_string : String) :
    Except Value Value := do
  logger.log env .error [.str "f_error >>>>>>>>", (msg.map Value.str).getD .nil, .num err_no,
    .str format_string]
  pure (.table [(msg.getD "error_res",
      .table [("err_no", .num err_no), ("err_msg", .str format_string)]),
    ("err", .bool true)])

/-- `rq_pcall` -/
def rq_pcall (env : Env) (f : Callback) (args : List Value) : Except Value (List Value) :=
  match x_pcall env f args with
  | .error result =>
    if !result.isTable then do
      logger.log env .error [.str ("rq_pcall faild:" ++ tostring env result)]
      let err ← f_error env none (-1) "internal error"
      pure [err]
    else pure [result]
  | .ok results =>
    let result := results.headD .nil
    if result.isTable && (result.field "err").truthy then
      pure (result.clear "err" :: results.tail)
    else pure (atLeastOne results)

/-! ## `dispatch_command` -/

/-- A table of commands. -/
abbrev Commands := Value → Option Callback

/-- `CMD[cmd]`: there is nothing at `nil`. -/
def index (CMD : Commands) (cmd : Value) : Option Callback :=
  if cmd.isNil then none else CMD cmd

/-- `"…" .. cmd` -/
def concat (s : String) : Value → Except Value String
  | .str s' => .ok (s ++ s')
  | .num n => .ok (s ++ toString n)
  | _ => .error (.str "attempt to concatenate a value")

/-- `CMD.Request` -/
def request (env : Env) (REQUEST : Commands) : Callback := fun args => do
  let cmd := args.headD .nil
  logger.log env .debug [.str "REQUEST", cmd]
  let msg ← concat "REQUEST cmd no found :" cmd
  match index REQUEST cmd with
  | none => throw (.str msg)
  | some f =>
    let result := (← f args.tail).headD .nil
    logger.log env .debug [result]
    pure [result]

/-- `CMD`, once `dispatch_command` has set `CMD.Request`. -/
def commands (env : Env) (CMD : Commands) (REQUEST : Option Commands) : Commands :=
  match REQUEST with
  | none => CMD
  | some REQUEST => fun cmd =>
    if cmd.eqStr "Request" then some (request env REQUEST) else CMD cmd

/-- The function that `dispatch_command` returns. -/
def dispatch_command (env : Env) (CMD : Commands) (REQUEST : Option Commands)
    (source cmd : Value) (args : List Value) : Run Unit :=
  match index (commands env CMD REQUEST) cmd with
  | none => pure ()
  | some f =>
    if cmd.eqStr "socket" then do retpack env (← call (xx_pcall env f (source :: args)))
    else if cmd.eqStr "Request" then do retpack env (← call (rq_pcall env f args))
    else do retpack env (← call (xx_pcall env f args))

/-! ## `MessageDispatch` -/

structure MessageDispatch where
  self_msg_callback : Option Callback
  tb_self_msg : Commands

/-- `MessageDispatch:dispatchMessage` -/
def MessageDispatch.dispatchMessage (env : Env) (self : MessageDispatch) (source cmd : Value)
    (args : List Value) : Run Unit :=
  let func := index self.tb_self_msg cmd
  match func, self.self_msg_callback with
  | none, none => do
    let msg ← call (concat "####### cmd " cmd)
    call (Logger.log env .error [.str (msg ++ " not found at manager_service ")])
  | some func, _ =>
    if cmd.eqStr "socket" then do retpack env (← call (xx_pcall env func (source :: args)))
    else do retpack env (← call (xx_pcall env func args))
  | none, some callback =>
    if cmd.eqStr "socket" then do retpack env (← call (xx_pcall env callback (source :: args)))
    else do retpack env (← call (xx_pcall env callback args))

end SkynetHotfix.Dispatch
