import SkynetHotfix.Wsgate.Handshake

/-!
# The gate

The handlers of `wsgateserver.lua` (`MSG`, `CMD`, `openclient`, `closeclient`,
`dispatch_msg`), with those of `wsgate.lua` that they call. What a handler asks
of the socket driver and sends to other services is its output.
-/

namespace SkynetHotfix.Wsgate

open Function (update)

/-- An entry of `connection` in `wsgateserver.lua`. -/
structure Conn where
  isconnect : Bool
  iswebsocket_handeshake : Nat

/-- An entry of `connection` in `wsgate.lua`. -/
structure Client where
  fd : Nat
  ip : String
  client : Option Nat
  agent : Option Nat

structure Gate where
  socket : Option Nat
  maxclient : Option Nat
  client_number : Int
  nodelay : Bool
  connection : Nat → Option Conn
  watchdog : Option Nat
  /-- `connection` of `wsgate.lua`. -/
  clients : Nat → Option Client
  /-- The fd of the connection of an agent. -/
  forwarding : Nat → Option Nat

/-- `conf` of `CMD.open`. -/
structure Conf where
  address : Option String
  port : Option Nat
  maxclient : Option Nat
  nodelay : Bool
  watchdog : Option Nat

/-- What is asked of the socket driver, sent to the watchdog or an agent, or raised. -/
inductive Out
  | start (fd : Nat)
  | close (fd : Nat)
  | nodelay (fd : Nat)
  | send (fd : Nat) (text : String)
  | respond (fd code : Nat) (text : String)
  | socketOpen (fd : Nat) (addr : String)
  | socketData (fd : Nat) (msg : List Char)
  | socketClose (fd : Nat)
  | socketError (fd : Nat) (msg : String)
  | socketWarning (fd size : Nat)
  | redirect (agent : Nat) (client : Option Nat) (fd : Nat) (msg : List Char)
  | log (text : String)
  | raise (text : String)
deriving DecidableEq

/-- Before `CMD.open`. -/
def Gate.init : Gate where
  socket := none
  maxclient := none
  client_number := 0
  nodelay := false
  connection := fun _ => none
  watchdog := none
  clients := fun _ => none
  forwarding := fun _ => none

/-! ## `wsgate.lua` -/

/-- `unforward(c)` -/
def unforward (c : Client) (g : Gate) : Gate :=
  match c.agent with
  | none => g
  | some agent => { g with
      forwarding := update g.forwarding agent none
      clients := update g.clients c.fd (some { c with agent := none, client := none }) }

/-- `close_fd(fd)` of `wsgate.lua` -/
def handler.close_fd (fd : Nat) (g : Gate) : Gate :=
  match g.clients fd with
  | none => g
  | some c =>
    let g := unforward c g
    { g with clients := update g.clients fd none }

/-- `handler.message(fd, msg, sz)` -/
def handler.message (fd : Nat) (msg : List Char) (g : Gate) : List Out :=
  match g.clients fd with
  | none => [.raise "attempt to index local 'c'"]
  | some c =>
    match c.agent with
    | none => [.socketData fd msg]
    | some agent => [.redirect agent c.client fd msg]

/-- `handler.connect(fd, addr)` -/
def handler.connect (fd : Nat) (addr : String) (g : Gate) : Gate × List Out :=
  ({ g with clients := update g.clients fd (some ⟨fd, addr, none, none⟩) }, [.socketOpen fd addr])

/-- `handler.disconnect(fd)` -/
def handler.disconnect (fd : Nat) (g : Gate) : Gate × List Out :=
  (handler.close_fd fd g, [.socketClose fd])

/-- `handler.error(fd, msg)` -/
def handler.error (fd : Nat) (msg : String) (g : Gate) : Gate × List Out :=
  (handler.close_fd fd g, [.socketError fd msg])

/-! ## `wsgateserver.lua` -/

/-- `gateserver.openclient(fd)` -/
def openclient (fd : Nat) (g : Gate) : List Out :=
  match g.connection fd with
  | none => []
  | some c => if c.isconnect then [.start fd] else []

/-- `gateserver.closeclient(fd)` -/
def closeclient (fd : Nat) (g : Gate) : Gate × List Out :=
  match g.connection fd with
  | none => (g, [])
  | some _ => ({ g with connection := update g.connection fd none }, [.close fd])

/-- `gateserver.checkwebsocket(fd, header)` -/
def checkwebsocket (digest : String → String) (fd : Nat) (header : Header) (g : Gate) :
    Bool × Gate × List Out :=
  match checkwebsocket_valid digest header none with
  | .error (code, result) =>
    let (g, out) := closeclient fd g
    (false, g, .respond fd code result :: out)
  | .ok result => (true, g, [.send fd result])

/-- The line for a message that no connection takes. -/
def dropped (fd : Nat) (msg : List Char) : Out :=
  .log ("Drop message from fd (" ++ toString fd ++ ") : " ++ String.ofList msg)

/-- `dispatch_msg(fd, msg, sz)` -/
def dispatch_msg (digest : String → String) (fd : Nat) (msg : List Char) (g : Gate) :
    Gate × List Out :=
  match g.connection fd with
  | none => (g, [dropped fd msg])
  | some c =>
    if c.isconnect then
      if c.iswebsocket_handeshake = 1 then
        match checkwebsocket digest fd (parse_httpheader msg) g with
        | (true, g, out) =>
          let c := { c with iswebsocket_handeshake := 0 }
          ({ g with connection := update g.connection fd (some c) }, out)
        | (false, g, out) => (g, out)
      else (g, handler.message fd msg g)
    else (g, [dropped fd msg])

/-- `MSG.open(fd, msg)` -/
def MSG.open (fd : Nat) (msg : String) (g : Gate) : Gate × List Out :=
  match g.maxclient with
  | none => (g, [.raise "attempt to compare nil with number"])
  | some maxclient =>
    if g.client_number ≥ maxclient then (g, [.close fd])
    else
      let out := if g.nodelay then [Out.nodelay fd] else []
      let g := { g with
        connection := update g.connection fd (some ⟨true, 1⟩)
        client_number := g.client_number + 1 }
      let (g, out') := handler.connect fd msg g
      (g, out ++ out')

/-- `close_fd(fd)` of `wsgateserver.lua` -/
def close_fd (fd : Nat) (g : Gate) : Gate :=
  match g.connection fd with
  | none => g
  | some _ => { g with
      connection := update g.connection fd none
      client_number := g.client_number - 1 }

/-- `MSG.close(fd)` -/
def MSG.close (fd : Nat) (g : Gate) : Gate × List Out :=
  if g.socket ≠ some fd then
    let (g, out) := handler.disconnect fd g
    (close_fd fd g, out)
  else ({ g with socket := none }, [])

/-- `MSG.error(fd, msg)` -/
def MSG.error (fd : Nat) (msg : String) (g : Gate) : Gate × List Out :=
  if g.socket = some fd then (g, [.close fd, .log msg])
  else
    let (g, out) := handler.error fd msg g
    (close_fd fd g, out)

/-- `MSG.warning(fd, size)` -/
def MSG.warning (fd size : Nat) : List Out := [.socketWarning fd size]

/-- `CMD.open(source, conf)`, where the driver listens on `id`. -/
def CMD.open (source : Nat) (conf : Conf) (id : Nat) (g : Gate) : Gate × List Out :=
  match g.socket, conf.port with
  | none, some port =>
    let address := conf.address.getD "0.0.0.0"
    ({ g with
      maxclient := some (conf.maxclient.getD 1024)
      nodelay := conf.nodelay
      socket := some id
      watchdog := some (conf.watchdog.getD source) },
      [.log ("Listen on " ++ address ++ ":" ++ toString port), .start id])
  | _, _ => (g, [.raise "assertion failed!"])

/-- `CMD.close()` -/
def CMD.close (g : Gate) : List Out :=
  match g.socket with
  | none => [.raise "assertion failed!"]
  | some socket => [.close socket]

/-- `CMD.forward(source, fd, client, address)` -/
def CMD.forward (source fd : Nat) (client address : Option Nat) (g : Gate) : Gate × List Out :=
  match g.clients fd with
  | none => (g, [.raise "assertion failed!"])
  | some c =>
    let g := unforward c g
    let agent := address.getD source
    let g := { g with
      clients := update g.clients fd
        (some { c with client := some (client.getD 0), agent := some agent })
      forwarding := update g.forwarding agent (some fd) }
    (g, openclient fd g)

/-- `CMD.accept(source, fd)` -/
def CMD.accept (fd : Nat) (g : Gate) : Gate × List Out :=
  match g.clients fd with
  | none => (g, [.raise "assertion failed!"])
  | some c =>
    let g := unforward c g
    (g, openclient fd g)

/-- `CMD.kick(source, fd)` -/
def CMD.kick (fd : Nat) (g : Gate) : Gate × List Out := closeclient fd g

/-- What the gate handles: `data` is one call of `dispatch_msg`, by `MSG.data` or `MSG.more`. -/
inductive Event
  | listen (source : Nat) (conf : Conf) (id : Nat)
  | shut
  | open (fd : Nat) (addr : String)
  | data (fd : Nat) (msg : List Char)
  | close (fd : Nat)
  | error (fd : Nat) (msg : String)
  | warning (fd size : Nat)
  | forward (source fd : Nat) (client address : Option Nat)
  | accept (fd : Nat)
  | kick (fd : Nat)

def handle (digest : String → String) (g : Gate) : Event → Gate × List Out
  | .listen source conf id => CMD.open source conf id g
  | .shut => (g, CMD.close g)
  | .open fd addr => MSG.open fd addr g
  | .data fd msg => dispatch_msg digest fd msg g
  | .close fd => MSG.close fd g
  | .error fd msg => MSG.error fd msg g
  | .warning fd size => (g, MSG.warning fd size)
  | .forward source fd client address => CMD.forward source fd client address g
  | .accept fd => CMD.accept fd g
  | .kick fd => CMD.kick fd g

end SkynetHotfix.Wsgate
