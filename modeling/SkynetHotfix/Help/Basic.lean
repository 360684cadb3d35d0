import SkynetHotfix.Lua.Metatable

/-!
# Error bodies

`f_error` of `common/base/help.lua`, `Assert` and `AssertEx` that raise what it makes, and `rq_pcall`
that runs the handler of a request, on a heap: a body is a table, which `rq_pcall` changes where it
was returned. The dispatchers have the same wrapper by the values that are sent.
-/

namespace SkynetHotfix.Help

open Lua

/-- What the code relies on: each may be whatever it is. -/
structure Env where
  /-- A line of the logger. -/
  log : List Value → Except Value Unit
  /-- `tbText` of the language. -/
  tbText : Value → Value
  /-- `string.format` -/
  format : Value → List Value → Except Value String
  tostring : Value → String
  /-- `debug.traceback` of a message, and that of a coroutine. -/
  stack : Option String → String
  stackOf : Nat → String

/-- Code over the heap: what it returns, or raises. -/
abbrev Run := ExceptT Value (StateM Heap)

/-- The outcome of code in a heap, and the heap it leaves. -/
def outcome {α : Type} (x : Run α) (h : Heap) : Except Value α × Heap := x.run.run h

/-- A call that leaves the heap alone. -/
def lift {α : Type} : Except Value α → Run α
  | .ok a => pure a
  | .error err => throw err

/-- `{}` -/
def newTable : Run Nat := modifyGet Heap.newTable

/-- `t[k] = v` of a table without a metatable. -/
def assign (t : Nat) (k v : Value) : Run Unit := modify (·.set t k v)

/-- `lang:get(id)` -/
def Language.get (env : Env) (id : Value) : Value :=
  if (env.tbText id).truthy then env.tbText id else .str ""

/-- The text of an error, as `f_error` makes it. -/
def errMsg (env : Env) (err_no format_string : Value) (args : List Value) : Except Value Value :=
  let param := args.headD .nil
  if param.truthy && format_string.truthy then do
    let err_msg ← env.format format_string args
    .ok (.str err_msg)
  else if !format_string.truthy then
    -- `lang:get` always gives a text
    .ok (if (Language.get env err_no).truthy then Language.get env err_no else .str "")
  else .ok format_string

/-- `f_error(msg, err_no, format_string, ...)` -/
def f_error (env : Env) (msg err_no format_string : Value) (args : List Value) : Run Value := do
  lift (env.log ([.str "f_error >>>>>>>>", msg, err_no, format_string] ++ args))
  let err_body ← newTable
  let msg := if msg.truthy then msg else .str "error_res"
  let err_msg ← lift (errMsg env err_no format_string args)
  let body ← newTable
  assign body (.str "err_no") (if err_no.truthy then err_no else .num (-1))
  assign body (.str "err_msg") err_msg
  assign err_body msg (.table body)
  assign err_body (.str "err") (.bool true)
  return .table err_body

/-- `AssertEx(a, msg, err_no, format_string, ...)` -/
def AssertEx (env : Env) (a msg err_no format_string : Value) (args : List Value) : Run Unit := do
  if !a.truthy then throw (← f_error env msg err_no format_string args)

/-- `Assert(a, err_no, format_string, ...)` -/
def Assert (env : Env) (a err_no format_string : Value) (args : List Value) : Run Unit := do
  if !a.truthy then throw (← f_error env .nil err_no format_string args)

/-- `debug.traceback(err)` -/
def traceback (env : Env) : Value → Value
  | .nil => .str (env.stack none)
  | .num n => .str (env.stack (some (toString n)))
  | .str s => .str (env.stack (some s))
  | .thread id => .str (env.stackOf id)
  | err => err

/-- `x_pcall`: what the handler returns, or the error with its traceback. -/
def x_pcall (env : Env) (f : Run (List Value)) : Run (Except Value (List Value)) :=
  ExceptT.mk fun h =>
    match outcome f h with
    | (.ok results, h) => (.ok (.ok results), h)
    | (.error err, h) => (.ok (.error (traceback env err)), h)

/-- `rq_pcall(f, ...)`, of a handler with its arguments. -/
def rq_pcall (env : Env) (f : Run (List Value)) : Run (List Value) := do
  match ← x_pcall env f with
  | .error result =>
    if result.type ≠ .table then
      lift (env.log [.str ("rq_pcall faild:" ++ env.tostring result)])
      return [← f_error env .nil (.num (-1)) (.str "internal error") []]
    else return [result]
  | .ok results =>
    let result := results.headD .nil
    if let .table t := result then
      match (← getThe Heap).index t (.str "err") with
      | none => throw (.str "attempt to index a value")
      | some err =>
        if err.truthy then
          match (← getThe Heap).newindex t (.str "err") .nil with
          | none => throw (.str "attempt to index a value")
          | some h => set h
    return result :: results.tail

end SkynetHotfix.Help
