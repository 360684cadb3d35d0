import SkynetHotfix.Lib.WebSocket
import SkynetHotfix.Lua.Seq

/-!
# The WebSocket library

`send_frame`, `close`, `recv_frame` and `recv` of `lualib/websocket.lua`, over
what the peer has sent (`input`) and what has been written to it (`output`).
The callbacks of the handler are noted and return.
-/

namespace SkynetHotfix.Websocket

open Lua
open WebSocket (toBE ofBE)

/-- A Lua string, whose length is an integer. -/
structure Str where
  bytes : List UInt8
  lt : bytes.length < 2 ^ 63

/-- The errors that the library can raise. -/
inductive Raise
  | lengthOfNil
  | concatenateNil
  | bitwiseOnNil
deriving DecidableEq

/-- A callback of the handler. -/
inductive Handled
  | on_message (data : List UInt8)
  | on_close (code : Option Nat) (reason : Option (List UInt8))
  | on_pong (data : List UInt8)
deriving DecidableEq

/-- `self`, with its socket and its handler. -/
structure Ws where
  mask_outgoing : Bool
  client_terminated : Bool
  server_terminated : Bool
  input : List UInt8
  output : List UInt8
  closed : Bool
  handled : List Handled

/-- What a procedure returns, `none` standing for a lack of fuel. -/
abbrev Result := Except (Option Raise)

/-! ## Sending -/

/-- `ws:send_frame(fin, opcode, data)` -/
def send_frame (fin : Bool) (opcode : Nat) (data : Option (List UInt8)) (s : Ws) : Result Ws :=
  let finbit := if fin then 0x80 else 0
  let frame := [UInt8.ofNat (finbit ||| opcode)]
  match data with
  | none => .error (some .lengthOfNil)
  | some data =>
    let l := data.length
    let mask_bit := if s.mask_outgoing then 0x80 else 0
    let frame :=
      if l < 126 then frame ++ [UInt8.ofNat (l ||| mask_bit)]
      else if l < 0xFFFF then frame ++ UInt8.ofNat (126 ||| mask_bit) :: toBE 2 l
      else frame ++ UInt8.ofNat (127 ||| mask_bit) :: toBE 8 l
    .ok { s with output := s.output ++ (frame ++ data) }

/-- `ws:send_pong(data)` -/
def send_pong (data : Option (List UInt8)) (s : Ws) : Result Ws := send_frame true 0xA data s

/-- `ws:close(code, reason)` -/
def close (code : Option Nat) (reason : Option (List UInt8)) (s : Ws) : Result Ws := do
  let s ← if s.server_terminated then .ok s
    else
      let code := if code.isNone && reason.isSome then some 1000 else code
      let data := (code.map (toBE 2)).getD [] ++ reason.getD []
      let s ← send_frame true 0x8 (some data) s
      .ok { s with server_terminated := true }
  if s.client_terminated then .ok { s with closed := true } else .ok s

/-! ## Receiving -/

/-- `socket.read(id, sz)`: what is left is the error of a socket that has closed. -/
def read (sz : Nat) (s : Ws) : Except (List UInt8) (List UInt8) × Ws :=
  if sz ≤ s.input.length then (.ok (s.input.take sz), { s with input := s.input.drop sz })
  else (.error s.input, { s with input := [] })

/-- `websocket_mask(mask, data, length)` -/
def websocket_mask (mask data : List UInt8) (length : Nat) : Result (List UInt8) :=
  (List.range' 1 length).mapM fun i =>
    match Seq.get data i, Seq.get mask ((i - 1) % 4 + 1) with
    | some d, some m => .ok (d ^^^ m)
    | _, _ => .error (some .bitwiseOnNil)

/-- What `recv_frame` returns: a message that is nil is `none`. -/
inductive Received
  | failed (message : String) (err : List UInt8)
  | frame (final : Bool) (message : Option (List UInt8))

/-- A message of a failure, with the error of a socket. -/
abbrev Failure := String × List UInt8

/-- The part of `recv_frame` that finds `frame_length`, which `string.unpack` gives with a sign. -/
def readLength (payloadlen : Nat) (s : Ws) : Except Failure Int × Ws :=
  if payloadlen < 126 then (.ok payloadlen, s)
  else if payloadlen = 126 then
    match read 2 s with
    | (.error err, s) => (.error ("Payloadlen 126 read true length error:", err), s)
    | (.ok h_data, s) => (.ok (ofBE h_data), s)
  else
    match read 8 s with
    | (.error err, s) => (.error ("Payloadlen 127 read true length error:", err), s)
    | (.ok l_data, s) => (.ok ((ofBE l_data : Int).bmod (2 ^ 64)), s)

/-- The part that finds `frame_mask`. -/
def readMask (mask_frame : Bool) (s : Ws) : Except Failure (List UInt8) × Ws :=
  if mask_frame then
    match read 4 s with
    | (.error err, s) => (.error ("Masking Key read error:", err), s)
    | (.ok mask, s) => (.ok mask, s)
  else (.ok [], s)

/-- The part that finds `frame_data`. -/
def readData (frame_length : Int) (s : Ws) : Except Failure (List UInt8) × Ws :=
  if frame_length > 0 then
    match read frame_length.toNat s with
    | (.error err, s) => (.error ("Payload data read error:", err), s)
    | (.ok fdata, s) => (.ok fdata, s)
  else (.ok [], s)

/-- The part that takes the mask off. -/
def unmask (mask_frame : Bool) (frame_mask : List UInt8) (frame_length : Int)
    (frame_data : List UInt8) : Result (List UInt8) :=
  if mask_frame && frame_length > 0 then
    websocket_mask frame_mask frame_data frame_length.toNat
  else .ok frame_data

/-- What `recv_frame` does with a frame that it has read. -/
def takeFrame (final_frame : Bool) (frame_opcode : Nat) (frame_data : List UInt8) (s : Ws) :
    Result (Received × Ws) :=
  if !final_frame then .ok (.frame false (some frame_data), s)
  else if frame_opcode = 0x1 then .ok (.frame true (some frame_data), s)
  else if frame_opcode = 0x2 then .ok (.frame true (some frame_data), s)
  else if frame_opcode = 0x8 then do
    let code := if frame_data.length ≥ 2 then some (ofBE (frame_data.take 2)) else none
    let reason := if frame_data.length > 2 then some (frame_data.drop 2) else none
    let s ← close none none { s with client_terminated := true }
    .ok (.frame true none, { s with handled := s.handled ++ [.on_close code reason] })
  else if frame_opcode = 0x9 then do
    let s ← send_pong none s
    .ok (.frame true none, s)
  else if frame_opcode = 0xA then
    .ok (.frame true none, { s with handled := s.handled ++ [.on_pong frame_data] })
  else .ok (.frame true none, s)

/-- `ws:recv_frame()` from its second byte on. -/
def recvRest (final_frame : Bool) (frame_opcode : Nat) (mask_frame : Bool) (payloadlen : Nat)
    (s : Ws) : Result (Received × Ws) :=
  match readLength payloadlen s with
  | (.error (message, err), s) => .ok (.failed message err, s)
  | (.ok frame_length, s) =>
    match readMask mask_frame s with
    | (.error (message, err), s) => .ok (.failed message err, s)
    | (.ok frame_mask, s) =>
      match readData frame_length s with
      | (.error (message, err), s) => .ok (.failed message err, s)
      | (.ok frame_data, s) => do
        let frame_data ← unmask mask_frame frame_mask frame_length frame_data
        takeFrame final_frame frame_opcode frame_data s

/-- `ws:recv_frame()` -/
def recv_frame (s : Ws) : Result (Received × Ws) :=
  match read 2 s with
  | (.error err, s) => .ok (.failed "Read first 2 byte error: " err, s)
  | (.ok data, s) =>
    let header := data.getD 0 0
    let payloadlen := data.getD 1 0
    let final_frame := header &&& 0x80 != 0
    let reserved_bits := header &&& 0x70 != 0
    let frame_opcode := header &&& 0xf
    let frame_opcode_is_control := frame_opcode &&& 0x8 != 0
    if reserved_bits then .ok (.failed "Reserved_bits show using undefined extensions" [], s)
    else
      let mask_frame := payloadlen &&& 0x80 != 0
      let payloadlen := (payloadlen &&& 0x7f).toNat
      if frame_opcode_is_control && payloadlen ≥ 126 then
        .ok (.failed "Control frame payload overload" [], s)
      else if frame_opcode_is_control && !final_frame then
        .ok (.failed "Control frame must not be fragmented" [], s)
      else recvRest final_frame frame_opcode.toNat mask_frame payloadlen s

/-- What `recv` returns. -/
inductive Message
  | failed (message : String) (err : List UInt8)
  | data (data : List UInt8)

/-- The loop of `recv`. -/
def recvLoop : Nat → List UInt8 → Ws → Result (Message × Ws)
  | 0, _, _ => .error none
  | fuel + 1, data, s => do
    match ← recv_frame s with
    | (.failed message err, s) => .ok (.failed message err, s)
    | (.frame _ none, _) => .error (some .concatenateNil)
    | (.frame final (some message), s) =>
      let data := data ++ message
      if final then .ok (.data data, { s with handled := s.handled ++ [.on_message data] })
      else recvLoop fuel data s

/-- `ws:recv()` -/
def recv (fuel : Nat) (s : Ws) : Result (Message × Ws) := recvLoop fuel [] s

end SkynetHotfix.Websocket
