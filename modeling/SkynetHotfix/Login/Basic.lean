import SkynetHotfix.Crypt.Base64
import SkynetHotfix.Crypt.Des
import SkynetHotfix.Crypt.Exchange
import SkynetHotfix.Lib.Machine
import SkynetHotfix.Lib.Pipe

/-!
# The login server

`snax/loginserver.lua` and the client of `examples/login`, for any number of connections at once,
whose steps come in any order. A connection is a pipe each way; its client speaks the protocol, or
it is a stranger, who sends what he likes and hangs up when he likes. What a party writes stays
written when it raises an error behind (`Talk`). `auth_handler` and `login_handler` are the user's:
a step says what they give, and what they have given is kept in `handled`, which the code does not
have. A step opens a connection or is at one (`exec_cases`).
-/

namespace SkynetHotfix.Login

open Crypt

/-- An error, or the table `socket_error`. -/
inductive Raised
  | fault (fault : Fault)
  | socket_error
deriving DecidableEq

abbrev Talk : Type → Type := ExceptT Raised (StateM Text)

instance : MonadLift (Except Fault) Talk where
  monadLift x := ExceptT.mk (pure (x.mapError .fault))

/-- `write`; `connected` is whether the socket takes the text. -/
def write (connected : Bool) (text : Text) : Talk Unit :=
  if connected then modify (· ++ text) else throw .socket_error

def newline : UInt8 := 10

def writeline (connected : Bool) (text : Text) : Talk Unit := write connected (text ++ [newline])

def ascii (s : String) : Text := s.toList.map fun c => UInt8.ofNat c.toNat

/-- What `random()` gives to the `randomkey`s of a connection. -/
structure Random where
  challenge : Vector UInt8 8
  serverkey : Vector UInt8 8
  clientkey : Vector UInt8 8

/-- Where the coroutine is that serves a connection. -/
inductive Server (V : Type)
  | start
  /-- `auth` waits for the key of the client -/
  | handshake (challenge : Text)
  | response (challenge secret : Text)
  | token (secret : Text)
  /-- `auth` calls `auth_handler` -/
  | auth (token secret : Text)
  /-- `auth` has returned to `accept` -/
  | returned (server uid : V) (secret : Text)
  | refused
  /-- `accept` calls `login_handler` -/
  | login (server uid : V) (secret : Text)
  | closed
deriving DecidableEq

/-- Where the client is; it fails on a line that it reads. -/
inductive Client
  | stranger
  | challenge (token : Text)
  | exchange (challenge clientkey token : Text)
  | result (secret token : Text)
  | done (secret token result subid : Text)
  | failed (was : Client) (line : Text)
deriving DecidableEq

/-- A call of a handler that has come to its end, with `server, uid` or `err`, or with an error. -/
inductive Handled (V : Type)
  | auth (token : Text) (result : Option (V × V))
  | login (server uid : V) (secret : Text) (err : Option Text)
deriving DecidableEq

variable {V : Type}

/-- `auth`, from a line to the next. -/
def auth (connected : Bool) (random : Random) : Server V → Text → Talk (Server V)
  | .handshake challenge, handshake => do
    let clientkey ← lb64decode handshake
    if clientkey.length ≠ 8 then throw (.fault (.error "Invalid client key"))
    let serverkey := lrandomkey random.serverkey
    writeline connected (lb64encode (← ldhexchange serverkey))
    let secret ← ldhsecret clientkey serverkey
    return .response challenge secret
  | .response challenge secret, response => do
    let hmac ← lhmac64 challenge secret
    if hmac ≠ (← lb64decode response) then
      writeline connected (ascii "400 Bad Request")
      throw (.fault (.error "challenge failed"))
    return .token secret
  | .token secret, etoken => do
    let token ← ldesdecode secret (← lb64decode etoken)
    return .auth token secret
  | server, _ => return server

/-- `tonumber(string.sub(result, 1, 3)) == 200` -/
def accepted (result : Text) : Bool :=
  [ascii "200", ascii "2e2", ascii "2E2"].contains (result.take 3)

/-- The client, from a line to the next. -/
def clientStep (random : Random) : Client → Text → Talk Client
  | .challenge token, line => do
    let challenge ← lb64decode line
    let clientkey := lrandomkey random.clientkey
    writeline true (lb64encode (← ldhexchange clientkey))
    return .exchange challenge clientkey token
  | .exchange challenge clientkey token, line => do
    let secret ← ldhsecret (← lb64decode line) clientkey
    let hmac ← lhmac64 challenge secret
    writeline true (lb64encode hmac)
    let etoken ← ldesencode secret token
    writeline true (lb64encode etoken)
    return .result secret token
  | .result secret token, result => do
    if ¬ accepted result then throw (.fault (.error "assertion failed!"))
    let subid ← lb64decode (result.drop 4)
    return .done secret token result subid
  | client, _ => return client

/-- What becomes of a client by a line. -/
def Client.after (was : Client) (line : Text) : Except Raised Client → Client
  | .ok client => client
  | .error _ => .failed was line

/-- The slave has the socket and waits for a line. -/
def Server.reads : Server V → Bool
  | .handshake _ | .response _ _ | .token _ => true
  | _ => false

def Client.reads : Client → Bool
  | .challenge _ | .exchange _ _ _ | .result _ _ => true
  | _ => false

def Client.token : Client → Option Text
  | .challenge token | .exchange _ _ token | .result _ token | .done _ token _ _ => some token
  | .failed was _ => was.token
  | .stranger => none

structure Conn (V : Type) where
  random : Random
  server : Server V
  client : Client
  /-- to the server -/
  up : Pipe UInt8
  down : Pipe UInt8
  /-- the client has hung up -/
  hung : Bool
  handled : List (Handled V)

def Conn.new (random : Random) (client : Client) : Conn V :=
  ⟨random, .start, client, .empty, .empty, false, []⟩

/-- The server does not know that the client has hung up, which comes behind what he has sent. -/
def Conn.connected (c : Conn V) : Bool := !c.hung || !c.up.flight.isEmpty

/-- A line that is there is read by the server, and by the client. -/
def Conn.serverRead (c : Conn V) : Conn V :=
  match c.up.readline newline with
  | none => if c.connected then c else { c with server := .closed }
  | some (line, up) =>
    let (r, text) := (auth c.connected c.random c.server line).run.run []
    let server := match r with
      | .ok server => server
      | .error (.fault _) => .refused
      | .error .socket_error => .closed
    { c with server := server, up := up, down := c.down.write text }

def Conn.clientRead (c : Conn V) : Conn V :=
  match c.down.readline newline with
  | none => c
  | some (line, down) =>
    let (r, text) := (clientStep c.random c.client line).run.run []
    { c with client := c.client.after line r, down := down, up := c.up.write text }

/-- The challenge of `auth`. -/
def Conn.open (c : Conn V) : Conn V :=
  let challenge := lrandomkey c.random.challenge
  if c.connected then
    { c with
      server := .handshake challenge
      down := c.down.write (lb64encode challenge ++ [newline]) }
  else { c with server := .closed }

/-- The reply of `accept` before the connection is closed. -/
def Conn.close (c : Conn V) (reply : Text) : Conn V :=
  { c with
    server := .closed
    down := if c.connected then c.down.write (reply ++ [newline]) else c.down }

/-- Data of the client come to the slave, whose buffer is limited. -/
def Conn.deliverUp (c : Conn V) (n : Nat) : Conn V :=
  match c.server with
  | .start => c
  | server =>
    let up := c.up.deliver n
    { c with
      up := up
      server := if server.reads ∧ up.got.length > 8192 then .closed else server }

def Conn.deliverDown (c : Conn V) (n : Nat) : Conn V := { c with down := c.down.deliver n }

/-- The client hangs up; of what is in flight `n` bytes still come. -/
def Conn.hangup (c : Conn V) (n : Nat) : Conn V :=
  { c with hung := true, up := { c.up with flight := c.up.flight.take n } }

/-- `auth_handler` gives `server, uid`, or raises an error. -/
def Conn.authorize (c : Conn V) (result : Option (V × V)) : Conn V :=
  match c.server with
  | .auth token secret =>
    { c with
      server := match result with
        | some (server, uid) => .returned server uid secret
        | none => .refused
      handled := c.handled ++ [.auth token result] }
  | _ => c

structure Conf where
  multilogin : Bool

structure World (V : Type) where
  user_login : V → Bool
  conns : List (Conn V)

def World.empty : World V := ⟨fun _ => false, []⟩

inductive Event (V : Type)
  | connect (random : Random) (client : Client)
  /-- the server goes on with a connection, and the client -/
  | serve (i : Nat)
  | read (i : Nat)
  /-- the network delivers -/
  | up (i n : Nat)
  | down (i n : Nat)
  /-- a stranger sends, and hangs up -/
  | send (i : Nat) (text : Text)
  | hangup (i n : Nat)
  /-- `auth_handler` comes to its end, and `login_handler` -/
  | authorize (i : Nat) (result : Option (V × V))
  | finish (i : Nat) (err : Option Text)

def World.put (w : World V) (i : Nat) (c : Conn V) : World V := { w with conns := w.conns.set i c }

variable [DecidableEq V]

def World.serve (conf : Conf) (w : World V) (i : Nat) (c : Conn V) : World V :=
  match c.server with
  | .start => w.put i c.open
  | .handshake _ | .response _ _ | .token _ => w.put i c.serverRead
  | .refused => w.put i (c.close (ascii "401 Unauthorized"))
  | .returned server uid secret =>
    if conf.multilogin then w.put i { c with server := .login server uid secret }
    else if w.user_login uid then w.put i (c.close (ascii "406 Not Acceptable"))
    else
      { user_login := Function.update w.user_login uid true
        conns := w.conns.set i { c with server := .login server uid secret } }
  | .auth _ _ | .login _ _ _ | .closed => w

/-- The reply to what `login_handler` has given: `err`, or an error. -/
def replyTo : Option Text → Text
  | some err => ascii "200 " ++ lb64encode err
  | none => ascii "403 Forbidden"

def World.finish (w : World V) (i : Nat) (c : Conn V) (err : Option Text) : World V :=
  match c.server with
  | .login server uid secret =>
    let c := { c with handled := c.handled ++ [Handled.login server uid secret err] }
    { user_login := Function.update w.user_login uid false
      conns := w.conns.set i (c.close (replyTo err)) }
  | _ => w

def World.exec (conf : Conf) (w : World V) : Event V → World V
  | .connect random client => { w with conns := w.conns ++ [.new random client] }
  | .serve i => (w.conns[i]?).elim w (w.serve conf i)
  | .read i => (w.conns[i]?).elim w fun c => if c.client.reads then w.put i c.clientRead else w
  | .up i n => (w.conns[i]?).elim w fun c => w.put i (c.deliverUp n)
  | .down i n => (w.conns[i]?).elim w fun c => w.put i (c.deliverDown n)
  | .send i text => (w.conns[i]?).elim w fun c =>
    if c.client = .stranger ∧ ¬ c.hung then w.put i { c with up := c.up.write text } else w
  | .hangup i n => (w.conns[i]?).elim w fun c =>
    if c.client = .stranger ∧ ¬ c.hung then w.put i (c.hangup n) else w
  | .authorize i result => (w.conns[i]?).elim w fun c => w.put i (c.authorize result)
  | .finish i err => (w.conns[i]?).elim w fun c => w.finish i c err

/-- A client that speaks the protocol has a token that leaves room in the buffer of the server. -/
def Event.ok (_ : World V) : Event V → Prop
  | .connect _ client =>
    client = .stranger ∨ ∃ token, client = .challenge token ∧ token.length < 6128
  | _ => True

/-- What the steps of any number of connections lead to. -/
def Reached (conf : Conf) : World V → Prop := Machine.Reach (World.exec conf) Event.ok .empty

/-! ## What a step does -/

/-- What becomes of the world by a step at a connection. -/
inductive Step (conf : Conf) (w : World V) (i : Nat) (c : Conn V) : World V → Prop
  | serve : Step conf w i c (w.serve conf i c)
  | read (hreads : c.client.reads = true) : Step conf w i c (w.put i c.clientRead)
  | up (n : Nat) : Step conf w i c (w.put i (c.deliverUp n))
  | down (n : Nat) : Step conf w i c (w.put i (c.deliverDown n))
  | send (hstranger : c.client = .stranger) (text : Text) :
      Step conf w i c (w.put i { c with up := c.up.write text })
  | hangup (hstranger : c.client = .stranger) (n : Nat) : Step conf w i c (w.put i (c.hangup n))
  | authorize (result : Option (V × V)) : Step conf w i c (w.put i (c.authorize result))
  | finish (err : Option Text) : Step conf w i c (w.finish i c err)

theorem elim_cases {conf : Conf} {w w' : World V} {i : Nat} {f : Conn V → World V}
    (heq : w' = (w.conns[i]?).elim w f) (h : ∀ c, f c = w ∨ Step conf w i c (f c)) :
    w' = w ∨ ∃ i c, w.conns[i]? = some c ∧ Step conf w i c w' := by
  subst heq
  cases hi : w.conns[i]? with
  | none => exact .inl rfl
  | some c => exact (h c).imp id fun hstep => ⟨i, c, hi, hstep⟩

theorem exec_cases (conf : Conf) (w : World V) (e : Event V) :
    (∃ random client, e = .connect random client) ∨ w.exec conf e = w ∨
      ∃ i c, w.conns[i]? = some c ∧ Step conf w i c (w.exec conf e) := by
  cases e with
  | connect random client => exact .inl ⟨random, client, rfl⟩
  | serve i => exact .inr (elim_cases rfl fun c => .inr .serve)
  | read i =>
    refine .inr (elim_cases rfl fun c => ?_)
    split <;> rename_i hreads
    · exact .inr (.read hreads)
    · exact .inl rfl
  | up i n => exact .inr (elim_cases rfl fun c => .inr (.up n))
  | down i n => exact .inr (elim_cases rfl fun c => .inr (.down n))
  | send i text =>
    refine .inr (elim_cases rfl fun c => ?_)
    split <;> rename_i hstranger
    · exact .inr (.send hstranger.1 text)
    · exact .inl rfl
  | hangup i n =>
    refine .inr (elim_cases rfl fun c => ?_)
    split <;> rename_i hstranger
    · exact .inr (.hangup hstranger.1 n)
    · exact .inl rfl
  | authorize i result => exact .inr (elim_cases rfl fun c => .inr (.authorize result))
  | finish i err => exact .inr (elim_cases rfl fun c => .inr (.finish err))

end SkynetHotfix.Login
