import Mathlib.Algebra.Order.Ring.Nat
import Mathlib.Data.List.Dedup
import SkynetHotfix.Lib.Machine

/-!
# The coroutines of a service

`lualib/skynet.lua`: each message starts a coroutine, which yields to wait for answers, to answer,
or at its end, and `suspend` does what it yields for. The tables of where coroutines wait are
`Threads`, those of the requests that are served `Serving`.

A service in Lua is a state machine. While a coroutine runs it does any of the calls of
`skynet.lua`; what the main thread has yet to do, when no coroutine runs, is `todo`. Sessions start
again at 1 behind the last `int`. `coroutine_pool` is weak, so that `table.remove` takes any
coroutine of it.
-/

namespace SkynetHotfix.Skynet.Coroutines

open Function (update)

abbrev PTYPE_RESPONSE : Nat := 1
abbrev PTYPE_ERROR : Nat := 7

/-! ## Where coroutines wait -/

/-- Where a coroutine is, and so what it does when it is resumed. -/
inductive Place
  | unmade
  /-- made by `skynet.timeout` and not started -/
  | timer (session : Nat)
  /-- made by `skynet.fork` and not started -/
  | forked
  /-- made for a message and not started -/
  | dispatched
  | running
  /-- in `yield_call` -/
  | call (session : Nat)
  /-- in `skynet.sleep` -/
  | sleep (session : Nat)
  /-- in `skynet.wait`, which then clears `sleep_session[co]` -/
  | wait (session co : Nat)
  /-- at its end, to be used again -/
  | pooled
  | dead
  /-- suspended where nothing resumes it -/
  | lost
deriving DecidableEq

/-- The values of `session_id_coroutine`. -/
inductive Waiter
  | co (c : Nat)
  | BREAK
deriving DecidableEq

/-- What a coroutine is resumed for. -/
inductive Why
  | start
  | response
  | error
  | wakeup

/-- `ctx->session_id` of the context is positive again where it has wrapped. -/
def skynet_context_newsession (session_id : Nat) : Nat :=
  if session_id + 1 < 2 ^ 31 then session_id + 1 else 1

/-- The tables of what waits, and the coroutines: which are made, which runs, where each is. Then
the sessions that coroutines have waited for, and those they were resumed for. -/
structure Threads where
  place : Nat → Place
  made : Nat
  running : Option Nat
  session_id : Nat
  session_id_coroutine : Nat → Option Waiter
  wakeup_queue : List Nat
  sleep_session : Nat → Option Nat
  watching_session : List (Nat × Nat)
  error_queue : List Nat
  fork_queue : List Nat
  coroutine_pool : List Nat
  asked : List (Nat × Nat)
  resumed : List (Nat × Nat)
  crashed : Bool

namespace Threads

variable (t : Threads)

/-- The session that is next. -/
def genid : Nat := skynet_context_newsession t.session_id

def put (c : Nat) (p : Place) : Threads := { t with place := update t.place c p }

def run (c : Nat) : Threads := { t.put c .running with running := some c }

def stop (c : Nat) (p : Place) : Threads := { t.put c p with running := none }

/-- `coroutine_resume`, and what the functions of `skynet.lua` do where they go on. A coroutine that
is not suspended, or not for this, is none to resume. -/
def resume (c : Nat) (why : Why) : Threads :=
  match t.place c, why with
  | .forked, .start => t.run c
  | .dispatched, .start => t.run c
  | .timer _, .response => t.run c
  | .call session, .response =>
    { t.run c with watching_session := t.watching_session.filter (·.1 ≠ session) }
  | .call session, .error =>
    { t.run c with watching_session := t.watching_session.filter (·.1 ≠ session) }
  | .sleep _, .response => { t.run c with sleep_session := update t.sleep_session c none }
  | .sleep _, .wakeup => { t.run c with sleep_session := update t.sleep_session c none }
  | .wait session co, .response =>
    { t.run c with
      sleep_session := update t.sleep_session co none
      session_id_coroutine := update t.session_id_coroutine session none }
  | .wait session co, .wakeup =>
    { t.run c with
      sleep_session := update t.sleep_session co none
      session_id_coroutine := update t.session_id_coroutine session none }
  | _, _ => { t with crashed := true }

/-- `co_create` -/
def co_create (pick : Nat) : Nat × Threads :=
  match t.coroutine_pool[pick]? with
  | some c => (c, { t with coroutine_pool := t.coroutine_pool.eraseIdx pick })
  | none => (t.made, { t with made := t.made + 1 })

/-- A new session, for which `c` waits at `p`. -/
def ask (c : Nat) (p : Nat → Place) : Threads :=
  { t with
    session_id := t.genid
    place := update t.place c (p t.genid)
    session_id_coroutine := update t.session_id_coroutine t.genid (some (.co c))
    asked := t.asked ++ [(t.genid, c)] }

/-- `skynet.timeout` -/
def timeout (pick : Nat) : Threads :=
  let (c, t) := t.co_create pick
  if t.session_id_coroutine t.genid = none then t.ask c .timer else { t with crashed := true }

/-- `skynet.fork` -/
def fork (pick : Nat) : Threads :=
  let (c, t) := t.co_create pick
  { t.put c .forked with fork_queue := t.fork_queue ++ [c] }

/-- `skynet.wakeup` -/
def wakeup (c : Nat) : Threads :=
  match t.sleep_session c with
  | some _ => { t with wakeup_queue := t.wakeup_queue ++ [c] }
  | none => t

/-- `yield_call`, up to its `coroutine_yield`, and `suspend` for `CALL`. -/
def call (c service : Nat) : Threads :=
  { t.ask c .call with
    watching_session := (t.genid, service) :: t.watching_session
    running := none }

/-- `skynet.sleep` or `skynet.wait`, up to its `coroutine_yield`, and `suspend` for `SLEEP`. -/
def sleep (c : Nat) (p : Nat → Place) : Threads :=
  { t.ask c p with
    sleep_session := update t.sleep_session c (some t.genid)
    running := none }

/-- The end of a coroutine, up to its `coroutine_yield "EXIT"`. -/
def finish (c : Nat) : Threads :=
  { t.stop c .pooled with coroutine_pool := t.coroutine_pool ++ [c] }

/-- A session that `c` waits for is over, as its entry becomes `w`. -/
def answer (session c : Nat) (w : Option Waiter) : Threads :=
  { t with
    session_id_coroutine := update t.session_id_coroutine session w
    resumed := t.resumed ++ [(session, c)] }

/-- `dispatch_wakeup`, up to `suspend` -/
def dispatch_wakeup : Threads :=
  match t.wakeup_queue with
  | [] => t
  | c :: rest =>
    let t := { t with wakeup_queue := rest }
    match t.sleep_session c with
    | some session => (t.answer session c (some .BREAK)).resume c .wakeup
    | none => t

/-- `dispatch_error_queue`, up to `suspend`, and whether there is a coroutine to resume. -/
def dispatch_error_queue : Threads × Bool :=
  match t.error_queue with
  | [] => (t, true)
  | session :: rest =>
    let t := { t with error_queue := rest }
    match t.session_id_coroutine session with
    | some (.co c) => ((t.answer session c none).resume c .error, true)
    | _ =>
      ({ t with session_id_coroutine := update t.session_id_coroutine session none }, false)

/-- The message with the answer to a session; `none` where the session is unknown. -/
def response (session : Nat) : Option Threads :=
  match t.session_id_coroutine session with
  | some .BREAK =>
    some { t with session_id_coroutine := update t.session_id_coroutine session none }
  | some (.co c) => some ((t.answer session c none).resume c .response)
  | none => none

/-- `_error_dispatch`, what it does to `error_queue`. -/
def error_dispatch (error_session error_source : Nat) : Threads :=
  if error_session = 0 then
    { t with
      error_queue := t.error_queue ++
        (t.watching_session.filter (·.2 = error_source)).map (·.1) }
  else if error_session ∈ t.watching_session.map (·.1) then
    { t with error_queue := t.error_queue ++ [error_session] }
  else t

end Threads

/-! ## The requests that are served -/

/-- What `f` is in `response`. -/
inductive Packer
  | pack
  | no
  | nil
deriving DecidableEq

/-- A function `response`, and whether it is in `unresponse`. -/
structure Response where
  co_session : Nat
  co_address : Nat
  f : Packer
  unresponse : Bool
deriving DecidableEq

structure Packet where
  dest : Nat
  type : Nat
  session : Nat
deriving DecidableEq

/-- The tables of the requests, by the coroutine that serves each. Then the packets that were sent
to answer, and the messages that were dispatched, by source and session. -/
structure Serving where
  session_coroutine_id : Nat → Option Nat
  session_coroutine_address : Nat → Option Nat
  session_response : Nat → Bool
  responses : List Response
  /-- 0 for `nil` -/
  watching_service : Nat → Nat
  dead_service : Nat → Bool
  sent : List Packet
  requests : List (Nat × Nat)

namespace Serving

variable (v : Serving)

/-- `c.send`, and whether it does not return `nil`. -/
def send (accepted : Bool) (p : Packet) : Serving :=
  if accepted then { v with sent := v.sent ++ [p] } else v

def release_watching (address : Nat) : Serving :=
  { v with watching_service := update v.watching_service address (v.watching_service address - 1) }

/-- A message's coroutine `c`, before it is resumed. -/
def dispatch (c session source : Nat) : Serving :=
  { v with
    watching_service := update v.watching_service source (v.watching_service source + 1)
    session_coroutine_id := update v.session_coroutine_id c (some session)
    session_coroutine_address := update v.session_coroutine_address c (some source)
    requests := v.requests ++ [(source, session)] }

/-- The response by RESPONSE, or by ERROR where the package is too large. -/
def reply (accepted : Bool) (address session : Nat) : Serving :=
  if accepted then v.send true ⟨address, PTYPE_RESPONSE, session⟩
  else v.send true ⟨address, PTYPE_ERROR, session⟩

/-- `session_response[co] = true` -/
def responded (c : Nat) : Serving :=
  { v with session_response := update v.session_response c true }

/-- `suspend` for `RETURN`; `none` for an error. -/
def RETURN (c : Nat) (accepted : Bool) : Option Serving :=
  match v.session_coroutine_id c with
  | some 0 => some v
  | some session =>
    if v.session_response c then none
    else
      let v := v.responded c
      match v.session_coroutine_address c with
      | some address =>
        if v.dead_service address then some v else some (v.reply accepted address session)
      | none => none
  | none => none

/-- `suspend` for `RESPONSE`; `none` for an error. -/
def RESPONSE (c : Nat) : Option Serving :=
  match v.session_coroutine_id c, v.session_coroutine_address c with
  | some session, some address =>
    if v.session_response c ∨ v.watching_service address = 0 then none
    else some
      { v.responded c with
        watching_service := update v.watching_service address (v.watching_service address + 1)
        responses := v.responses ++ [⟨session, address, .pack, true⟩] }
  | _, _ => none

/-- What the function `r` sends; to no session 0 (`send`). -/
def sentBy (r : Response) (ok accepted : Bool) : Serving :=
  if r.co_session ≠ 0 ∧ v.dead_service r.co_address = false then
    if ok then v.reply accepted r.co_address r.co_session
    else v.send accepted ⟨r.co_address, PTYPE_ERROR, r.co_session⟩
  else v

/-- `response(ok, ...)`, where `f(...)` raises no error. -/
def respond (i : Nat) (ok accepted : Bool) : Serving :=
  match v.responses[i]? with
  | some r =>
    match r.f with
    | .pack =>
      let v := (v.sentBy r ok accepted).release_watching r.co_address
      { v with responses := v.responses.set i { r with f := .nil, unresponse := false } }
    | .no => { v with responses := v.responses.set i { r with f := .nil } }
    | .nil => v
  | none => v

/-- `response("TEST")` -/
def test (i : Nat) : Serving :=
  match v.responses[i]? with
  | some r =>
    if v.dead_service r.co_address then
      let v := v.release_watching r.co_address
      { v with responses := v.responses.set i { r with f := .no, unresponse := false } }
    else v
  | none => v

/-- The end of a coroutine as a request's, with what `suspend` keeps for `EXIT` or for an error. -/
def clear (c : Nat) : Serving :=
  { v with
    session_coroutine_id := update v.session_coroutine_id c none
    session_coroutine_address := update v.session_coroutine_address c none }

/-- `suspend` for `EXIT`. -/
def EXIT (c : Nat) : Serving :=
  let v :=
    match v.session_coroutine_address c with
    | some address => v.release_watching address
    | none => v
  { v.clear c with session_response := update v.session_response c false }

/-- `suspend` for an error. -/
def fail (c : Nat) : Serving :=
  match v.session_coroutine_id c, v.session_coroutine_address c with
  | some 0, _ => v.clear c
  | some session, some address => (v.send true ⟨address, PTYPE_ERROR, session⟩).clear c
  | _, _ => v

/-- The requests of the first `n` coroutines, reported to their sources. -/
def report : Nat → Serving → Serving
  | 0, v => v
  | n + 1, v =>
    let v := report n v
    match v.session_coroutine_id n, v.session_coroutine_address n with
    | some session, some address =>
      if session ≠ 0 then v.send true ⟨address, PTYPE_ERROR, session⟩ else v
    | _, _ => v

/-- `resp(false)` for the first `n` functions that are in `unresponse`. -/
def refuse : Nat → Serving → Serving
  | 0, v => v
  | n + 1, v =>
    let v := refuse n v
    match v.responses[n]? with
    | some r => if r.unresponse then v.respond n false true else v
    | none => v

/-- `skynet.exit`; `callees` are those that have not returned. -/
def exit (made : Nat) (callees : List Nat) : Serving :=
  let v := report made v
  let v := refuse v.responses.length v
  { v with sent := v.sent ++ callees.map (⟨·, PTYPE_ERROR, 0⟩) }

/-- `_error_dispatch`, what it does to `dead_service`. -/
def error_dispatch (error_session error_source : Nat) : Serving :=
  if error_session = 0 ∧ v.watching_service error_source ≠ 0 then
    { v with dead_service := update v.dead_service error_source true }
  else v

end Serving

/-! ## The service -/

/-- What the main thread has yet to call. -/
inductive Todo
  | dispatch_wakeup
  | dispatch_error_queue
  /-- the loop of `skynet.dispatch_message` over `fork_queue` -/
  | fork
deriving DecidableEq

structure Service where
  threads : Threads
  serving : Serving
  todo : List Todo

/-- A message; `dispatch` is whether there is a function for its type, and `unpacks` whether
`p.unpack` raises no error. -/
structure Message where
  prototype : Nat
  session : Nat
  source : Nat
  dispatch : Bool
  unpacks : Bool

/-- What the running coroutine does, the answer of `c.send` being `accepted`. -/
inductive Act
  /-- `skynet.genid`, or a call of an address that is none -/
  | genid
  | timeout (pick : Nat)
  | fork (pick : Nat)
  | wakeup (c : Nat)
  | call (service : Nat)
  | sleep
  | wait (co : Option Nat)
  | ret (accepted : Bool)
  | response
  | respond (i : Nat) (ok accepted : Bool)
  | test (i : Nat)
  | exit
  | term (service : Nat)
  | finish
  | error
  /-- a yield that `suspend` returns from (`true`), or does not know -/
  | yield (debug : Bool)

inductive Op
  | message (m : Message) (pick : Nat)
  /-- The main thread goes on. -/
  | go (pick : Nat)
  | act (a : Act)
  /-- The collector takes a coroutine from the pool. -/
  | collect (i : Nat)

namespace Service

variable (s : Service)

/-- An error in the main thread, up to the `pcall` of `skynet.dispatch_message`. -/
def raise : Service := { s with todo := s.todo.dropWhile (· ≠ .fork) }

/-- The end of `suspend`. -/
def suspended : Service :=
  { s with todo := .dispatch_wakeup :: .dispatch_error_queue :: s.todo }

/-- The coroutine is of no use any more, and the main thread raises an error. -/
def lose (c : Nat) : Service := { s with threads := s.threads.stop c .lost }.raise

def finish (c : Nat) : Service :=
  { s with threads := s.threads.finish c, serving := s.serving.EXIT c }.suspended

def raw_dispatch_message (m : Message) (pick : Nat) : Service :=
  if m.prototype = PTYPE_RESPONSE then
    match s.threads.response m.session with
    | some threads => { s with threads := threads }
    | none => s.raise
  else if m.dispatch = false then
    if m.session ≠ 0 then
      { s with serving := s.serving.send true ⟨m.source, PTYPE_ERROR, m.session⟩ }
    else s.raise
  else
    let (c, threads) := s.threads.co_create pick
    let serving := s.serving.dispatch c m.session m.source
    if m.unpacks = false then { s with threads := threads.put c .lost, serving := serving }.raise
    else
      let threads := (threads.put c .dispatched).resume c .start
      if m.prototype = PTYPE_ERROR then
        { s with
          threads := threads.error_dispatch m.session m.source
          serving := serving.error_dispatch m.session m.source : Service }.finish c
      else { s with threads := threads, serving := serving }

def dispatch_message (m : Message) (pick : Nat) : Service :=
  { s with todo := [.fork] }.raw_dispatch_message m pick

/-- The main thread, up to the next coroutine it resumes. -/
def go (pick : Nat) : Service :=
  match s.todo with
  | [] => s
  | .dispatch_wakeup :: todo => { s with threads := s.threads.dispatch_wakeup, todo := todo }
  | .dispatch_error_queue :: todo =>
    let (threads, resumes) := s.threads.dispatch_error_queue
    let s := { s with threads := threads, todo := todo }
    if resumes then s else s.raise
  | .fork :: todo =>
    match s.threads.fork_queue[pick]? with
    | some c =>
      let threads := { s.threads with fork_queue := s.threads.fork_queue.eraseIdx pick }
      { s with threads := threads.resume c .start }
    | none => if s.threads.fork_queue = [] then { s with todo := todo } else s

/-- The running coroutine `c` does something, and `suspend` what it yields for. -/
def act (c : Nat) : Act → Service
  | .genid => { s with threads := { s.threads with session_id := s.threads.genid } }
  | .timeout pick => { s with threads := s.threads.timeout pick }
  | .fork pick => { s with threads := s.threads.fork pick }
  | .wakeup co => { s with threads := s.threads.wakeup co }
  | .call service => { s with threads := s.threads.call c service }.suspended
  | .sleep => { s with threads := s.threads.sleep c .sleep }.suspended
  | .wait co => { s with threads := s.threads.sleep c (.wait · (co.getD c)) }.suspended
  | .ret accepted =>
    match s.serving.RETURN c accepted with
    | some serving => { s with serving := serving }
    | none => { s with serving := s.serving.responded c : Service }.lose c
  | .response =>
    match s.serving.RESPONSE c with
    | some serving => { s with serving := serving }
    | none => s.lose c
  | .respond i ok accepted => { s with serving := s.serving.respond i ok accepted }
  | .test i => { s with serving := s.serving.test i }
  | .exit =>
    { s with
      threads := { s.threads with fork_queue := [] }.stop c .lost
      serving := s.serving.exit s.threads.made (s.threads.watching_session.map (·.2)).dedup }
  | .term service =>
    { s with
      threads := s.threads.error_dispatch 0 service
      serving := s.serving.error_dispatch 0 service }
  | .finish => s.finish c
  | .error =>
    { s with threads := s.threads.stop c .dead, serving := s.serving.fail c : Service }.raise
  | .yield debug =>
    if debug then { s with threads := s.threads.stop c .lost } else s.lose c

end Service

def exec (s : Service) : Op → Service
  | .message m pick =>
    if s.threads.running = none ∧ s.todo = [] then s.dispatch_message m pick else s
  | .go pick => if s.threads.running = none then s.go pick else s
  | .act a =>
    match s.threads.running with
    | some c => s.act c a
    | none => s
  | .collect i =>
    { s with
      threads := { s.threads with coroutine_pool := s.threads.coroutine_pool.eraseIdx i } }

def Threads.new : Threads where
  place _ := .unmade
  made := 0
  running := none
  session_id := 0
  session_id_coroutine _ := none
  wakeup_queue := []
  sleep_session _ := none
  watching_session := []
  error_queue := []
  fork_queue := []
  coroutine_pool := []
  asked := []
  resumed := []
  crashed := false

def Serving.new : Serving where
  session_coroutine_id _ := none
  session_coroutine_address _ := none
  session_response _ := false
  responses := []
  watching_service _ := 0
  dead_service _ := false
  sent := []
  requests := []

/-- `skynet.start` -/
def Service.start : Service := ⟨Threads.new.timeout 0, Serving.new, []⟩

/-- No coroutine waits for the session that is next, and no error is queued for it. -/
def Threads.Free (t : Threads) : Prop :=
  t.session_id_coroutine t.genid = none ∧ t.genid ∉ t.error_queue

/-- A session that is asked for is not in use, and `skynet.wait` is called for the coroutine that
calls it. -/
def Op.ok (s : Service) : Op → Prop
  | .act (.timeout _) | .act (.call _) | .act .sleep => s.threads.Free
  | .act (.wait co) => s.threads.Free ∧ (co = none ∨ co = s.threads.running)
  | _ => True

/-- What a service reaches, whatever its coroutines do and whatever messages come. -/
def Reached : Service → Prop := Machine.Reach exec (fun _ _ => True) Service.start

end SkynetHotfix.Skynet.Coroutines
