import SkynetHotfix.Lib.Fuel
import SkynetHotfix.Lib.WebSocket

/-!
# Packets of the WebSocket gate

`lualib-src/lua-websocketnetpack.c`: a chunk of bytes from a socket is cut into
packets (`filter_data_`, `push_more`). One that is not complete waits in a
hash table by the fd of its socket, and packets that come together wait in a
ring (`push_data`, `lpop`). Buffers are lists, and what reads or writes outside
of a buffer, or asks for a negative size, is a fault.
-/

namespace SkynetHotfix.Netpack

open Function (update)
open WebSocket (Key mask ofBE toBE)

def QUEUESIZE : Nat := 1024
def HASHSIZE : Nat := 4096
def HEADERSIZE : Nat := 1024
def WEBSOCKET_HEADER_LEN : Nat := 2
def WEBSOCKET_MASK_LEN : Nat := 4
def MAX_PACKSIZE : Int := 10 * 1024

inductive Fault
  | overread
  | overflow
  | negative
deriving DecidableEq

abbrev Result := Fuel.Result Fault

/-- `struct netpack` -/
structure Pack where
  id : Int
  size : Int
  buffer : List UInt8
deriving DecidableEq

/-- `struct uncomplete`: the header has its `header_size` bytes, and the buffer those that have been
read into it. -/
structure Uncomplete where
  pack : Pack
  header : List UInt8
  read : Int
  mask : Key
  ismask : Bool
  hasunmask_size : Nat

/-- `struct queue` -/
structure Queue where
  cap : Nat
  head : Nat
  tail : Nat
  hash : Nat → List Uncomplete
  queue : Nat → Pack

def hash_fd (fd : Int) : Nat :=
  let a := fd >>> (24 : Nat)
  let b := fd >>> (12 : Nat)
  let c := fd
  ((a + b + c) % 2 ^ 32).toNat % HASHSIZE

/-! ## The queue -/

/-- The first packet of `fd` in a list, and the list without it. -/
def unlink (fd : Int) : List Uncomplete → Option (Uncomplete × List Uncomplete)
  | [] => none
  | uc :: next =>
    if uc.pack.id = fd then some (uc, next)
    else (unlink fd next).map fun p => (p.1, uc :: p.2)

def find_uncomplete (q : Option Queue) (fd : Int) : Option Uncomplete × Option Queue :=
  match q with
  | none => (none, none)
  | some q =>
    match unlink fd (q.hash (hash_fd fd)) with
    | none => (none, some q)
    | some (uc, list) => (some uc, some { q with hash := update q.hash (hash_fd fd) list })

/-- `get_queue`: the slots of a new queue are not initialized. -/
def get_queue (q : Option Queue) : Queue :=
  q.getD
    { cap := QUEUESIZE, head := 0, tail := 0, hash := fun _ => [], queue := fun _ => ⟨0, 0, []⟩ }

def expand_queue (q : Queue) : Queue where
  cap := q.cap + QUEUESIZE
  head := 0
  tail := q.cap
  hash := q.hash
  queue := fun i => if i < q.cap then q.queue ((q.head + i) % q.cap) else ⟨0, 0, []⟩

/-- `skynet_malloc(size)` -/
def malloc (size : Int) : Result Unit := if size < 0 then .error (some .negative) else .ok ()

/-- A packet in the slot at the tail. -/
def Queue.store (q : Queue) (np : Pack) : Queue where
  cap := q.cap
  head := q.head
  tail := if q.tail + 1 ≥ q.cap then q.tail + 1 - q.cap else q.tail + 1
  hash := q.hash
  queue := update q.queue q.tail np

/-- `push_data`, with the bytes of the buffer. -/
def push_data (q : Option Queue) (fd : Int) (buffer : List UInt8) (size : Int) (clone : Bool) :
    Result (Option Queue) := do
  let () ← (if clone then malloc size else .ok () : Result Unit)
  let q := (get_queue q).store ⟨fd, size, buffer⟩
  .ok (some (if q.head = q.tail then expand_queue q else q))

/-- Puts a packet that is not complete at the front of the list of its fd. -/
def save_uncomplete (q : Option Queue) (fd : Int) (uc : Uncomplete) : Option Queue :=
  let q := get_queue q
  let h := hash_fd fd
  let uc := { uc with pack := ⟨fd, uc.pack.size, uc.pack.buffer⟩ }
  some { q with hash := update q.hash h (uc :: q.hash h) }

/-! ## Headers -/

/-- What `read_size` returns and sets. -/
structure ReadSize where
  pack_size : Int
  pack_head_length : Nat
  mask : Key
  ismask : Bool

/-- A `pack_size` with nothing set. -/
def ReadSize.only (pack_size : Int) : ReadSize := ⟨pack_size, 0, fun _ => 0, false⟩

/-- The end of `read_size`, behind the length. -/
def readMask (buffer : List UInt8) (is_mask : Bool) (offset : Nat) (pack_size : Int) : ReadSize :=
  if is_mask then
    if offset + WEBSOCKET_MASK_LEN > buffer.length then .only (-1)
    else
      { pack_size := pack_size
        pack_head_length := offset + WEBSOCKET_MASK_LEN
        mask := fun i => buffer.getD (offset + i) 0
        ismask := true }
  else { ReadSize.only pack_size with pack_head_length := offset }

/-- `read_size`: the length of 64 bits is cut down to an `int`. -/
def read_size (buffer : List UInt8) : ReadSize :=
  match buffer with
  | b₀ :: b₁ :: rest =>
    let fin := b₀ >>> 7 &&& 0x1
    let rsv := b₀ >>> 4 &&& 0x7
    let opcode := b₀ &&& 0xf
    let is_mask := b₁ >>> 7 &&& 0x1 != 0
    if rsv ≠ 0 then .only (-2)
    else if fin = 0 ∨ opcode = 0 then .only (-2)
    else
      let length := b₁ &&& 0x7f
      if length < 0x7E then readMask buffer is_mask 2 length.toNat
      else if length = 0x7E then
        if buffer.length < 4 then .only (-1)
        else readMask buffer is_mask 4 (ofBE (rest.take 2))
      else
        if buffer.length < 10 then .only (-1)
        else readMask buffer is_mask 10 ((ofBE (rest.take 8) : Int).bmod (2 ^ 32))
  | _ => .only (-1)

/-- `decode_wsmask_data` for the bytes that it is given. -/
def decode_wsmask_data (data : List UInt8) (uc : Uncomplete) : List UInt8 × Uncomplete :=
  if uc.ismask then
    (mask uc.mask uc.hasunmask_size data,
      { uc with hasunmask_size := uc.hasunmask_size + data.length })
  else (data, uc)

/-- The loop of `websocket_strnpos`, with the turns that are left. -/
def strnpos (needle : List UInt8) : Nat → Nat → List UInt8 → Result Int
  | 0, _, _ => .ok (-1)
  | _ + 1, _, [] => .error (some .overread)
  | n + 1, i, c :: haystack =>
    if needle.head? = some c then
      if haystack.length + 1 < needle.length then .error (some .overread)
      else if (c :: haystack).take needle.length = needle then .ok i
      else strnpos needle n (i + 1) haystack
    else strnpos needle n (i + 1) haystack

/-- `websocket_strnpos`: the number of turns is unsigned. -/
def websocket_strnpos (haystack needle : List UInt8) : Result Int :=
  strnpos needle ((haystack.length + 2 ^ 32 - needle.length + 1) % 2 ^ 32) 0 haystack

def get_http_header (buffer : List UInt8) : Result Int := do
  let n ← websocket_strnpos buffer [13, 10, 13, 10]
  if n < 0 then .ok n else .ok (n + 4)

/-- The loop that throws two bytes away as long as the size is `bad`, with the bytes left. -/
def resync (bad : Int → Bool) : List UInt8 → ReadSize × List UInt8
  | b₀ :: b₁ :: buffer =>
    let r := read_size (b₀ :: b₁ :: buffer)
    if bad r.pack_size then resync bad buffer else (r, b₀ :: b₁ :: buffer)
  | buffer => (read_size buffer, buffer)

/-- The size of a packet, or of a request in the handshake. -/
def readHead (wsocket_handeshake : Bool) (bad : Int → Bool) (buffer : List UInt8) :
    Result (ReadSize × List UInt8) :=
  if wsocket_handeshake then do
    let pack_size ← get_http_header buffer
    .ok (.only pack_size, buffer)
  else .ok (resync bad buffer)

/-- The sizes that `push_more` passes over. -/
def badMore (pack_size : Int) : Bool := pack_size ≤ -2 || pack_size > MAX_PACKSIZE

/-- The sizes that `filter_data_` passes over. -/
def badFilter (pack_size : Int) : Bool := pack_size == -2 || pack_size > MAX_PACKSIZE

/-! ## Packets -/

/-- A packet with what has been read of its header. -/
def saveHeader (q : Option Queue) (fd : Int) (buffer : List UInt8) : Result (Option Queue) :=
  if buffer.length > HEADERSIZE then .error (some .overflow)
  else .ok (save_uncomplete q fd
    { pack := ⟨fd, 0, []⟩, header := buffer, read := -1, mask := fun _ => 0, ismask := false,
      hasunmask_size := 0 })

/-- A packet whose payload is not complete, with no bytes of it yet. -/
def newUncomplete (fd : Int) (r : ReadSize) : Uncomplete where
  pack := ⟨fd, r.pack_size, []⟩
  header := []
  read := 0
  mask := r.mask
  ismask := r.ismask
  hasunmask_size := 0

/-- The bytes of a packet that is not complete: decoded and copied behind those it has. -/
def Uncomplete.fill (uc : Uncomplete) (buffer : List UInt8) : Uncomplete :=
  let (data, decoded) := decode_wsmask_data buffer uc
  { pack := ⟨uc.pack.id, uc.pack.size, uc.pack.buffer ++ data⟩
    header := uc.header
    read := uc.read + buffer.length
    mask := uc.mask
    ismask := uc.ismask
    hasunmask_size := decoded.hasunmask_size }

/-- A packet with what has been read of its payload. -/
def savePayload (q : Option Queue) (fd : Int) (r : ReadSize) (buffer : List UInt8) :
    Result (Option Queue) := do
  malloc r.pack_size
  .ok (save_uncomplete q fd ((newUncomplete fd r).fill buffer))

/-- The payload at the front of a buffer, decoded. -/
def payload (r : ReadSize) (buffer : List UInt8) : List UInt8 :=
  (decode_wsmask_data (buffer.take r.pack_size.toNat) (newUncomplete 0 r)).1

def push_more (fd : Int) (wsocket_handeshake : Bool) (fuel : Nat) :
    List UInt8 → Option Queue → Result (Option Queue) :=
  Fuel.run (fun rec buffer q => do
    let (r, buffer) ← readHead wsocket_handeshake badMore buffer
    if r.pack_size = -1 then saveHeader q fd buffer
    else
      let buffer := buffer.drop r.pack_head_length
      if (buffer.length : Int) < r.pack_size ∧ ¬ wsocket_handeshake then
        savePayload q fd r buffer
      else do
        let q ← push_data q fd (payload r buffer) r.pack_size true
        let buffer := buffer.drop r.pack_size.toNat
        if buffer.length > 0 then rec buffer q else .ok q) fuel

/-- What `filter` returns besides the queue. -/
inductive Ret
  | nothing
  | data (fd : Int) (buffer : List UInt8) (size : Int)
  | more
  | close (id : Int)
  | open (id : Int) (msg : List UInt8)
  | error (id : Int) (msg : List UInt8)
  | warning (id ud : Int)

/-- The loop of `filter_data_` that goes on with a header: the bytes of the buffer go to it one by
one. -/
def fillHeader (wsocket_handeshake : Bool) : List UInt8 → List UInt8 →
    Result (ReadSize × List UInt8 × List UInt8)
  | header, [] => .ok (.only 0, header, [])
  | header, b :: buffer =>
    if header.length ≥ HEADERSIZE then .error (some .overflow)
    else do
      let (r, header) ← readHead wsocket_handeshake badFilter (header ++ [b])
      if r.pack_size ≥ 0 ∨ buffer = [] then .ok (r, header, buffer)
      else fillHeader wsocket_handeshake header buffer

/-- The part of `filter_data_` that goes on with a payload. -/
def fillPayload (fd : Int) (wsocket_handeshake : Bool) (uc : Uncomplete) (buffer : List UInt8)
    (q : Option Queue) : Result (Ret × Option Queue) :=
  let need := uc.pack.size - uc.read
  if (buffer.length : Int) < need then .ok (.nothing, save_uncomplete q fd (uc.fill buffer))
  else do
    let uc := uc.fill (buffer.take need.toNat)
    let buffer := buffer.drop need.toNat
    if buffer.length = 0 then .ok (.data fd uc.pack.buffer uc.pack.size, q)
    else do
      let q ← push_data q fd uc.pack.buffer uc.pack.size false
      let q ← push_more fd wsocket_handeshake buffer.length buffer q
      .ok (.more, q)

/-- A packet whose header is complete. -/
def Uncomplete.start (uc : Uncomplete) (wsocket_handeshake : Bool) (r : ReadSize)
    (header : List UInt8) : Uncomplete :=
  let read := if wsocket_handeshake then min (header.length : Int) r.pack_size else 0
  { pack := ⟨uc.pack.id, r.pack_size, header.take read.toNat⟩
    header := header
    read := read
    mask := r.mask
    ismask := r.ismask
    hasunmask_size := 0 }

def filter_data_ (fd : Int) (buffer : List UInt8) (wsocket_handeshake : Bool) (q : Option Queue) :
    Result (Ret × Option Queue) :=
  match find_uncomplete q fd with
  | (some uc, q) =>
    if uc.read < 0 then do
      let (r, header, buffer) ← fillHeader wsocket_handeshake uc.header buffer
      if r.pack_size = -1 then .ok (.nothing, save_uncomplete q fd { uc with header := header })
      else do
        malloc r.pack_size
        fillPayload fd wsocket_handeshake (uc.start wsocket_handeshake r header) buffer q
    else fillPayload fd wsocket_handeshake uc buffer q
  | (none, q) => do
    let (r, buffer) ← readHead wsocket_handeshake badFilter buffer
    if r.pack_size = -1 then do
      let q ← saveHeader q fd buffer
      .ok (.nothing, q)
    else
      let buffer := buffer.drop r.pack_head_length
      if (buffer.length : Int) < r.pack_size ∧ ¬ wsocket_handeshake then do
        let q ← savePayload q fd r buffer
        .ok (.nothing, q)
      else if (buffer.length : Int) = r.pack_size then
        .ok (.data fd (payload r buffer) buffer.length, q)
      else do
        let q ← push_data q fd (payload r buffer) r.pack_size true
        let buffer := buffer.drop r.pack_size.toNat
        let q ← push_more fd wsocket_handeshake buffer.length buffer q
        .ok (.more, q)

/-! ## Functions for Lua -/

/-- `struct skynet_socket_message`, by its type. -/
inductive SocketMessage
  | data (id : Int) (buffer : List UInt8)
  | connect (id : Int)
  | close (id : Int)
  | accept (id ud : Int) (msg : List UInt8)
  | error (id : Int) (msg : List UInt8)
  | warning (id ud : Int)

def close_uncomplete (q : Option Queue) (fd : Int) : Option Queue := (find_uncomplete q fd).2

/-- `filter(queue, msg, size, wsocket_handeshake)` -/
def lfilter (q : Option Queue) (wsocket_handeshake : Bool) :
    SocketMessage → Result (Ret × Option Queue)
  | .data id buffer => filter_data_ id buffer wsocket_handeshake q
  | .connect _ => .ok (.nothing, q)
  | .close id => .ok (.close id, close_uncomplete q id)
  | .accept _ ud msg => .ok (.open ud msg, q)
  | .error id msg => .ok (.error id msg, close_uncomplete q id)
  | .warning id ud => .ok (.warning id ud, q)

/-- `pop(queue)` -/
def lpop (q : Option Queue) : Option Pack × Option Queue :=
  match q with
  | none => (none, none)
  | some q =>
    if q.head = q.tail then (none, some q)
    else
      let head := if q.head + 1 ≥ q.cap then 0 else q.head + 1
      (some (q.queue q.head), some { q with head := head })

/-- `FRAME_SET_LENGTH(len, idx)` -/
def frameSetLength (len idx : Nat) : UInt8 := UInt8.ofNat ((len >>> (idx * 8)) &&& 0xFF)

/-- `pack(msg)` -/
def lpack (msg : List UInt8) : List UInt8 :=
  let len := msg.length
  let frame_header :=
    if len < 126 then [0x82, frameSetLength len 0]
    else if len < 65536 then [0x82, 126, frameSetLength len 1, frameSetLength len 0]
    else
      [0x82, 127, frameSetLength len 7, frameSetLength len 6, frameSetLength len 5,
        frameSetLength len 4, frameSetLength len 3, frameSetLength len 2, frameSetLength len 1,
        frameSetLength len 0]
  frame_header ++ msg

end SkynetHotfix.Netpack
