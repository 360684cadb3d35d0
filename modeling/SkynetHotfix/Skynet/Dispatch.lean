import SkynetHotfix.Lib.Machine
import SkynetHotfix.Skynet.Mq

/-!
# The dispatch of messages

`skynet_server.c` and `skynet_start.c`: how services are launched, sent messages, looked after by
the workers, retired and released. A thread is a stack of frames, each a place in a function where
it holds no lock; from there to the next such place is one step, which other threads cannot
interrupt. A step is `none` where an assertion fails, a count of references goes below 0 or a
queue is used that has been freed, or before `ctx->queue` is set.

A context is known by its handle, as its queue is, so that `assert(q == ctx->queue)` holds as long
as no new service gets the handle of a queue that is still there; handles come round after `2 ^ 24`.
Nor has anyone the handle of a context before its queue is set, to send to it (`ok`). What a service
does in its callback, while it starts or when it is released, and what other threads do, is any
calls at all.
-/

namespace SkynetHotfix.Skynet

open Function (update)

abbrev PTYPE_ERROR : Nat := 7
abbrev MESSAGE_TYPE_SHIFT : Nat := 56

/-- `struct skynet_context`, whether `skynet_handle.c` knows it, whether `ctx->queue` is set, and its
queue; then what was put into the queue, what was dispatched and what was dropped of it. -/
structure Service where
  ref : Nat
  registered : Bool
  cb : Bool
  init : Bool
  created : Bool
  queue : MessageQueue
  freed : Bool
  pushed : List Message
  taken : List Message
  dropped : List Message

/-- Where no service is yet, as after one that is gone. -/
def Service.gone (handle : Nat) : Service where
  ref := 0
  registered := false
  cb := false
  init := false
  created := true
  queue := { MessageQueue.skynet_mq_create handle with release := true, in_global := false }
  freed := true
  pushed := []
  taken := []
  dropped := []

structure Memory where
  services : Nat → Service
  global : GlobalQueue

inductive Frame
  /-- `thread_worker`, at its call of `skynet_context_message_dispatch` -/
  | worker (weight : Int) (q : Option Nat)
  /-- `skynet_context_message_dispatch`, its loop -/
  | turn (weight : Int) (q i n : Nat)
  /-- at `skynet_mq_length` -/
  | length (weight : Int) (q : Nat) (msg : Message)
  /-- at `dispatch_message` -/
  | call (weight : Int) (q : Nat) (msg : Message) (i n : Nat)
  /-- at `skynet_globalmq_push` -/
  | back (weight : Int) (q nq : Nat)
  /-- at `skynet_context_release`; `ret` is returned -/
  | leave (weight : Int) (q : Nat) (ret : Option Nat)
  /-- `skynet_mq_release` -/
  | mq_release (q : Nat)
  /-- `_drop_queue` -/
  | drop_queue (q : Nat)
  /-- `skynet_context_push` -/
  | send (handle : Nat) (message : Message)
  /-- at `skynet_mq_push` -/
  | push (handle : Nat) (message : Message)
  /-- `skynet_context_release` -/
  | release (handle : Nat)
  /-- `delete_context`, at `skynet_mq_mark_release` -/
  | delete (handle : Nat)
  /-- `skynet_handle_retire` -/
  | retire (handle : Nat)
  /-- a function that grabs a context for a while, such as `skynet_context_endless` -/
  | grab (handle : Nat)
  /-- `skynet_callback` -/
  | callback (handle : Nat) (cb : Bool)
  /-- `skynet_context_new` -/
  | new
  /-- at `skynet_mq_create` -/
  | create (handle : Nat)
  /-- at `skynet_module_instance_init` -/
  | init (handle : Nat)
  /-- at `skynet_context_release`, the service being launched -/
  | launched (handle : Nat)
  /-- at `skynet_globalmq_push` -/
  | start (handle : Nat)
  /-- at `skynet_context_release`, the service having failed -/
  | failed (handle : Nat)
  /-- at `skynet_handle_retire` -/
  | unlaunched (handle : Nat)

namespace Memory

variable (m : Memory)

def set (q : Nat) (s : Service) : Memory :=
  { m with services := update m.services q s }

/-- The service whose queue is used. -/
def live (q : Nat) : Option Service :=
  if (m.services q).freed ∨ (m.services q).created = false then none else some (m.services q)

def globalmq_push (q : Nat) : Option Memory := do
  let g ← m.global.skynet_globalmq_push q
  some { m with global := g }

def globalmq_pop : Option (Option Nat × Memory) := do
  let (q, g) ← m.global.skynet_globalmq_pop
  some (q, { m with global := g })

/-- `skynet_handle_grab`; `none` for NULL. -/
def handle_grab (handle : Nat) : Option Memory :=
  let s := m.services handle
  if s.registered then some (m.set handle { s with ref := s.ref + 1 }) else none

/-- `skynet_handle_retire`, with the lock; what is left to do. -/
def handle_retire (handle : Nat) : Memory × List Frame :=
  let s := m.services handle
  if s.registered then (m.set handle { s with registered := false }, [.release handle]) else (m, [])

/-- `skynet_context_release`; what is left to do, and whether the context is still there. -/
def context_release (handle : Nat) : Option (Memory × List Frame × Bool) :=
  let s := m.services handle
  if s.ref = 0 then none
  else if s.ref = 1 then some (m.set handle { s with ref := 0 }, [.delete handle], false)
  else some (m.set handle { s with ref := s.ref - 1 }, [], true)

def mq_push (handle : Nat) (message : Message) : Option Memory := do
  let s ← m.live handle
  let queue := s.queue.put message
  let s := { s with queue := { queue with in_global := true }, pushed := s.pushed ++ [message] }
  if queue.in_global then some (m.set handle s) else (m.set handle s).globalmq_push handle

def mq_mark_release (q : Nat) : Option Memory := do
  let s ← m.live q
  guard (s.queue.release = false)
  let m := m.set q { s with queue := { s.queue with release := true } }
  if s.queue.in_global then some m else m.globalmq_push q

/-- `skynet_context_new`, up to the handle in the context; the queue is not there yet. -/
def context_new (handle : Nat) : Memory :=
  m.set handle
    { ref := 2, registered := true, cb := false, init := false, created := false,
      queue := MessageQueue.skynet_mq_create handle, freed := false,
      pushed := [], taken := [], dropped := [] }

/-- `ctx->queue = skynet_mq_create(ctx->handle)` -/
def mq_create (handle : Nat) : Memory :=
  m.set handle { m.services handle with created := true }

end Memory

/-- `drop_message`: the message that tells the source of another one that it was dropped. -/
def drop_message (handle : Nat) (msg : Message) : List Frame :=
  if msg.source = 0 then []
  else [.send msg.source ⟨handle, 0, none, PTYPE_ERROR <<< MESSAGE_TYPE_SHIFT⟩]

/-- What a step takes from elsewhere: the handle of a new context, and what
`skynet_module_instance_init` returns. -/
structure Choice where
  handle : Nat
  r : Int

/-- One step of a frame, and the frames that are left of it. -/
def Frame.step (m : Memory) (choice : Choice) : Frame → Option (Memory × List Frame)
  | worker weight none => do
    let (q, m) ← m.globalmq_pop
    some (m, [worker weight q])
  | worker weight (some q) => do
    let _ ← m.live q
    match m.handle_grab q with
    | some m => some (m, [turn weight q 0 1])
    | none => some (m, [mq_release q, worker weight none])
  | turn weight q i n =>
    if i < n then do
      let s ← m.live q
      match s.queue.skynet_mq_pop with
      | (none, queue) => some (m.set q { s with queue := queue }, [leave weight q none])
      | (some msg, queue) =>
        let m := m.set q { s with queue := queue, taken := s.taken ++ [msg] }
        some (m, [if i = 0 ∧ 0 ≤ weight then length weight q msg else call weight q msg i n])
    else do
      let (nq, m) ← m.globalmq_pop
      match nq with
      | some nq => some (m, [back weight q nq])
      | none => some (m, [leave weight q (some q)])
  | length weight q msg => do
    let s ← m.live q
    some (m, [call weight q msg 0 (s.queue.skynet_mq_length >>> weight.toNat)])
  | call weight q _ i n => do
    let s ← m.live q
    guard (s.cb = true → s.init = true)
    some (m.set q { s with queue := s.queue.skynet_mq_overload.2 }, [turn weight q (i + 1) n])
  | back weight q nq => do
    let m ← m.globalmq_push q
    some (m, [leave weight q (some nq)])
  | leave weight q ret => do
    let (m, rest, _) ← m.context_release q
    some (m, rest ++ [worker weight ret])
  | mq_release q => do
    let s ← m.live q
    if s.queue.release then some (m, [drop_queue q])
    else do
      let m ← m.globalmq_push q
      some (m, [])
  | drop_queue q => do
    let s ← m.live q
    match s.queue.skynet_mq_pop with
    | (some msg, queue) =>
      some (m.set q { s with queue := queue, dropped := s.dropped ++ [msg] },
        drop_message q msg ++ [drop_queue q])
    | (none, queue) => do
      guard (m.global.next q = none)
      some (m.set q { s with queue := queue, freed := true }, [])
  | send handle message =>
    match m.handle_grab handle with
    | some m => some (m, [push handle message])
    | none => some (m, [])
  | push handle message => do
    let m ← m.mq_push handle message
    some (m, [release handle])
  | release handle => do
    let (m, rest, _) ← m.context_release handle
    some (m, rest)
  | delete handle => do
    let m ← m.mq_mark_release handle
    some (m, [])
  | retire handle => some (m.handle_retire handle)
  | grab handle =>
    match m.handle_grab handle with
    | some m => some (m, [release handle])
    | none => some (m, [])
  | callback handle cb => some (m.set handle { m.services handle with cb := cb }, [])
  | new => some (m.context_new choice.handle, [create choice.handle])
  | create handle => some (m.mq_create handle, [init handle])
  | init handle => some (m, [if choice.r = 0 then launched handle else failed handle])
  | launched handle => do
    let (m, rest, ret) ← m.context_release handle
    let m := if ret then m.set handle { m.services handle with init := true } else m
    some (m, rest ++ [start handle])
  | start handle => do
    let m ← m.globalmq_push handle
    some (m, [])
  | failed handle => do
    let (m, rest, _) ← m.context_release handle
    some (m, rest ++ [unlaunched handle])
  | unlaunched handle =>
    let (m, rest) := m.handle_retire handle
    some (m, rest ++ [mq_release handle])

/-- What any code may call. -/
inductive Call
  | send (handle : Nat) (message : Message)
  | retire (handle : Nat)
  | grab (handle : Nat)
  | callback (handle : Nat) (cb : Bool)
  | new

def Call.frame : Call → Frame
  | send handle message => .send handle message
  | retire handle => .retire handle
  | grab handle => .grab handle
  | callback handle cb => .callback handle cb
  | new => .new

structure World where
  memory : Memory
  threads : List (List Frame)

inductive Op
  /-- A thread takes a step. -/
  | run (thread : Nat) (choice : Choice)
  /-- A thread calls a function. -/
  | call (thread : Nat) (c : Call)

/-- The frame that a thread is in. -/
def World.top (w : World) (thread : Nat) : Option Frame :=
  (w.threads[thread]?.getD []).head?

/-- `none` for a failure. -/
def World.step (w : World) : Op → Option World
  | .run thread choice =>
    match w.threads[thread]? with
    | some (f :: rest) => do
      let (m, fs) ← f.step w.memory choice
      some ⟨m, w.threads.set thread (fs ++ rest)⟩
    | _ => some w
  | .call thread c =>
    match w.threads[thread]? with
    | some stack => some ⟨w.memory, w.threads.set thread (c.frame :: stack)⟩
    | none => some w

def exec (w : Option World) (op : Op) : Option World := w.bind (·.step op)

/-- A new handle is not one of a queue that is still there, and the queue of a context that is sent
to is set. -/
def World.fresh (w : World) (thread : Nat) (choice : Choice) : Bool :=
  match w.top thread with
  | some .new => (w.memory.services choice.handle).freed
  | some (.push handle _) => (w.memory.services handle).created
  | _ => true

def ok : Option World → Op → Prop
  | some w, .run thread choice => w.fresh thread choice
  | _, _ => True

/-- Workers, by their weights, and other threads, before anything is launched. -/
def World.new (weights : List Int) (others : Nat) : World where
  memory := ⟨Service.gone, GlobalQueue.skynet_mq_init⟩
  threads := weights.map (fun weight => [.worker weight none]) ++ List.replicate others []

/-- What the runs reach, `none` after a failure. -/
def Reached (weights : List Int) (others : Nat) : Option World → Prop :=
  Machine.Reach exec ok (some (World.new weights others))

end SkynetHotfix.Skynet
