import SkynetHotfix.Lib.Codes
import SkynetHotfix.Lib.LittleEndian

/-!
# The messages' format

`lua-seri.c`: `luaseri_pack` writes values one after the other into a chain of blocks and copies the
chain into one buffer, `luaseri_unpack` reads them back. Numbers have the bytes of a little-endian
machine with pointers of 8 bytes. A table is what is packed of it: the values of `1 .. #t`, then the
pairs in the order of `lua_next` (or of `__pairs`). `luaseri_unpack` checks that the Lua stack, which is
limited, has room for what it leaves there; `luaseri_pack` is called where there is room for the few
slots that it needs.
-/

namespace SkynetHotfix.Seri

open LittleEndian

inductive Value
  | nil
  | boolean (b : Bool)
  | integer (n : BitVec 64)
  /-- a double by its bits -/
  | real (bits : BitVec 64)
  | userdata (p : BitVec 64)
  | string (s : List UInt8)
  | table (array : List Value) (hash : List (Value × Value))
  /-- a function, a thread or a full userdata -/
  | other (typename : String)

inductive Fault
  | error (msg : String)
  /-- a length that no `int` holds -/
  | overflow
  | fuel
deriving DecidableEq

@[match_pattern] abbrev TYPE_NIL : Nat := 0
@[match_pattern] abbrev TYPE_BOOLEAN : Nat := 1
@[match_pattern] abbrev TYPE_NUMBER : Nat := 2
@[match_pattern] abbrev TYPE_NUMBER_ZERO : Nat := 0
@[match_pattern] abbrev TYPE_NUMBER_BYTE : Nat := 1
@[match_pattern] abbrev TYPE_NUMBER_WORD : Nat := 2
@[match_pattern] abbrev TYPE_NUMBER_DWORD : Nat := 4
@[match_pattern] abbrev TYPE_NUMBER_QWORD : Nat := 6
@[match_pattern] abbrev TYPE_NUMBER_REAL : Nat := 8
@[match_pattern] abbrev TYPE_USERDATA : Nat := 3
@[match_pattern] abbrev TYPE_SHORT_STRING : Nat := 4
@[match_pattern] abbrev TYPE_LONG_STRING : Nat := 5
@[match_pattern] abbrev TYPE_TABLE : Nat := 6

abbrev MAX_COOKIE : Nat := 32
abbrev BLOCK_SIZE : Nat := 128
abbrev MAX_DEPTH : Nat := 32
abbrev LUA_MINSTACK : Nat := 20
abbrev EXTRA_STACK : Nat := 5
abbrev LUAI_MAXSTACK : Nat := 1000000

def COMBINE_TYPE (t v : Nat) : UInt8 := .ofNat (t ||| v <<< 3)

/-- A number's bytes in memory. -/
def bytes {w : Nat} (x : BitVec w) : List UInt8 := toLE (w / 8) x.toNat

/-! ## Packing -/

/-- `struct write_block`: the blocks that are full, and the first `ptr` bytes of the current one. -/
structure WriteBlock where
  full : List (List UInt8)
  current : List UInt8
  len : Nat
  length_full : ∀ b ∈ full, b.length = BLOCK_SIZE
  length_current : current.length ≤ BLOCK_SIZE
  len_eq : len = full.flatten.length + current.length

namespace WriteBlock

def ptr (b : WriteBlock) : Nat := b.current.length

def bytes (b : WriteBlock) : List UInt8 := b.full.flatten ++ b.current

/-- `b->current = b->current->next = blk_alloc()` -/
def next (b : WriteBlock) (h : b.ptr = BLOCK_SIZE) : WriteBlock where
  full := b.full ++ [b.current]
  current := []
  len := b.len
  length_full x hx := by
    rcases List.mem_append.mp hx with hx | hx
    · exact b.length_full x hx
    · rw [List.mem_singleton.mp hx]
      exact h
  length_current := Nat.zero_le _
  len_eq := by
    rw [b.len_eq, List.flatten_append, List.length_append, List.flatten_singleton]
    rfl

/-- `memcpy(b->current->buffer + b->ptr, ..)` -/
def copy (b : WriteBlock) (buffer : List UInt8) (h : b.ptr + buffer.length ≤ BLOCK_SIZE) :
    WriteBlock where
  full := b.full
  current := b.current ++ buffer
  len := b.len + buffer.length
  length_full := b.length_full
  length_current := by
    rw [List.length_append]
    exact h
  len_eq := by
    rw [b.len_eq, List.length_append]
    omega

/-- The current block, or a next one where that is full. -/
def room (b : WriteBlock) : WriteBlock := if h : b.ptr = BLOCK_SIZE then b.next h else b

theorem take_le (b : WriteBlock) (buffer : List UInt8) :
    b.ptr + (buffer.take (BLOCK_SIZE - b.ptr)).length ≤ BLOCK_SIZE := by
  have hptr : b.ptr ≤ BLOCK_SIZE := b.length_current
  rw [List.length_take]
  omega

end WriteBlock

def wb_init : WriteBlock where
  full := []
  current := []
  len := 0
  length_full _ hb := absurd hb List.not_mem_nil
  length_current := Nat.zero_le _
  len_eq := rfl

/-- The turns of `wb_push`, each into one block. -/
def push : Nat → WriteBlock → List UInt8 → WriteBlock
  | 0, b, _ => b
  | n + 1, b, buffer =>
    let b := b.room
    if h : b.ptr + buffer.length ≤ BLOCK_SIZE then b.copy buffer h
    else
      push n (b.copy (buffer.take (BLOCK_SIZE - b.ptr)) (b.take_le buffer))
        (buffer.drop (BLOCK_SIZE - b.ptr))

def wb_push (b : WriteBlock) (buffer : List UInt8) : WriteBlock := push (buffer.length + 1) b buffer

def wb_nil (wb : WriteBlock) : WriteBlock := wb_push wb [.ofNat TYPE_NIL]

def wb_boolean (wb : WriteBlock) (boolean : Bool) : WriteBlock :=
  wb_push wb [COMBINE_TYPE TYPE_BOOLEAN (if boolean then 1 else 0)]

def wb_integer (wb : WriteBlock) (v : BitVec 64) : WriteBlock :=
  if v = 0 then wb_push wb [COMBINE_TYPE TYPE_NUMBER TYPE_NUMBER_ZERO]
  else if v ≠ (v.setWidth 32).signExtend 64 then
    wb_push (wb_push wb [COMBINE_TYPE TYPE_NUMBER TYPE_NUMBER_QWORD]) (bytes v)
  else if v.toInt < 0 then
    wb_push (wb_push wb [COMBINE_TYPE TYPE_NUMBER TYPE_NUMBER_DWORD]) (bytes (v.setWidth 32))
  else if v.toInt < 0x100 then
    wb_push (wb_push wb [COMBINE_TYPE TYPE_NUMBER TYPE_NUMBER_BYTE]) (bytes (v.setWidth 8))
  else if v.toInt < 0x10000 then
    wb_push (wb_push wb [COMBINE_TYPE TYPE_NUMBER TYPE_NUMBER_WORD]) (bytes (v.setWidth 16))
  else wb_push (wb_push wb [COMBINE_TYPE TYPE_NUMBER TYPE_NUMBER_DWORD]) (bytes (v.setWidth 32))

def wb_real (wb : WriteBlock) (v : BitVec 64) : WriteBlock :=
  wb_push (wb_push wb [COMBINE_TYPE TYPE_NUMBER TYPE_NUMBER_REAL]) (bytes v)

def wb_pointer (wb : WriteBlock) (v : BitVec 64) : WriteBlock :=
  wb_push (wb_push wb [.ofNat TYPE_USERDATA]) (bytes v)

def wb_string (wb : WriteBlock) (str : List UInt8) : WriteBlock :=
  let len := str.length
  if len < MAX_COOKIE then
    let wb := wb_push wb [COMBINE_TYPE TYPE_SHORT_STRING len]
    if len > 0 then wb_push wb str else wb
  else if len < 0x10000 then
    wb_push (wb_push (wb_push wb [COMBINE_TYPE TYPE_LONG_STRING 2]) (bytes (.ofNat 16 len))) str
  else wb_push (wb_push (wb_push wb [COMBINE_TYPE TYPE_LONG_STRING 4]) (bytes (.ofNat 32 len))) str

/-- The start of `wb_table_array`. -/
def wbTableSize (wb : WriteBlock) (array_size : Nat) : WriteBlock :=
  if array_size ≥ MAX_COOKIE - 1 then
    wb_integer (wb_push wb [COMBINE_TYPE TYPE_TABLE (MAX_COOKIE - 1)]) (.ofNat 64 array_size)
  else wb_push wb [COMBINE_TYPE TYPE_TABLE array_size]

mutual

def pack_one (v : Value) (depth : Nat) (b : WriteBlock) : Except Fault WriteBlock :=
  if depth > MAX_DEPTH then .error (.error "serialize can't pack too depth table")
  else match v with
    | .nil => .ok (wb_nil b)
    | .integer x => .ok (wb_integer b x)
    | .real n => .ok (wb_real b n)
    | .boolean x => .ok (wb_boolean b x)
    | .string str => .ok (wb_string b str)
    | .userdata p => .ok (wb_pointer b p)
    | .table array hash => do
      let b ← wb_table_array array (depth + 1) (wbTableSize b array.length)
      wb_table_hash hash (depth + 1) b
    | .other typename => .error (.error s!"Unsupport type {typename} to serialize")
termination_by structural v

/-- The loop over `1 .. array_size`. -/
def wb_table_array (array : List Value) (depth : Nat) (wb : WriteBlock) :
    Except Fault WriteBlock :=
  match array with
  | [] => .ok wb
  | v :: array => do
    let wb ← pack_one v depth wb
    wb_table_array array depth wb
termination_by structural array

def wb_table_hash (hash : List (Value × Value)) (depth : Nat) (wb : WriteBlock) :
    Except Fault WriteBlock :=
  match hash with
  | [] => .ok (wb_nil wb)
  | p :: hash => do
    let wb ← wbPair p depth wb
    wb_table_hash hash depth wb
termination_by structural hash

def wbPair (p : Value × Value) (depth : Nat) (wb : WriteBlock) : Except Fault WriteBlock :=
  match p with
  | (k, v) => do
    let wb ← pack_one k depth wb
    pack_one v depth wb
termination_by structural p

end

def pack_from : List Value → WriteBlock → Except Fault WriteBlock
  | [], b => .ok b
  | v :: vs, b => do
    let b ← pack_one v 0 b
    pack_from vs b

/-- The chain of blocks, copied into one buffer. -/
def seri : List (List UInt8) → Nat → List UInt8
  | [], _ => []
  | b :: next, len =>
    if len ≥ BLOCK_SIZE then b ++ seri next (len - BLOCK_SIZE) else b.take len

def luaseri_pack (vs : List Value) : Except Fault (List UInt8) := do
  let wb ← pack_from vs wb_init
  if wb.len < 2 ^ 31 then .ok (seri (wb.full ++ [wb.current]) wb.len) else .error .overflow

/-! ## Unpacking -/

/-- The state is what is left to read: `rb->len` bytes from `rb->ptr` on. -/
abbrev Unpacker := Codes.Reader UInt8 Fault

def rb_read (sz : Nat) : Unpacker (Option (List UInt8)) := fun rb =>
  if rb.length < sz then .ok (none, rb) else .ok (some (rb.take sz), rb.drop sz)

def invalid_stream {α : Type} (line : Nat) : Unpacker α := fun rb =>
  .error (.error s!"Invalid serialize stream {rb.length} (line:{line})")

/-- `rb_read`, and `invalid_stream` in a line where nothing comes of it. -/
def rbReadOr (sz line : Nat) : Unpacker (List UInt8) := do
  match ← rb_read sz with
  | none => invalid_stream line
  | some p => pure p

def get_integer : Nat → Unpacker (BitVec 64)
  | TYPE_NUMBER_ZERO => pure 0
  | TYPE_NUMBER_BYTE => do
    let pn ← rbReadOr 1 368
    pure (.ofNat 64 (ofLE pn))
  | TYPE_NUMBER_WORD => do
    let pn ← rbReadOr 2 376
    pure (.ofNat 64 (ofLE pn))
  | TYPE_NUMBER_DWORD => do
    let pn ← rbReadOr 4 384
    pure ((BitVec.ofNat 32 (ofLE pn)).signExtend 64)
  | TYPE_NUMBER_QWORD => do
    let pn ← rbReadOr 8 392
    pure (.ofNat 64 (ofLE pn))
  | _ => invalid_stream 397

def get_real : Unpacker (BitVec 64) := do
  let pn ← rbReadOr 8 407
  pure (.ofNat 64 (ofLE pn))

def get_pointer : Unpacker (BitVec 64) := do
  let v ← rbReadOr 8 417
  pure (.ofNat 64 (ofLE v))

/-- As an `int` a length of `2 ^ 31` or more is below 0: `rb_read` lets it pass, and
`lua_pushlstring` takes it for the size of a string that is too big. -/
def get_buffer (len : Nat) : Unpacker (List UInt8) :=
  if len < 2 ^ 31 then rbReadOr len 427
  else throw (.error "memory allocation error: block too big")

def Value.isNil : Value → Bool
  | .nil => true
  | _ => false

def Value.isNaN : Value → Bool
  | .real bits => bits.extractLsb' 52 11 == BitVec.allOnes 11 && bits.extractLsb' 0 52 != 0
  | _ => false

/-- `luaL_checkstack(L, LUA_MINSTACK, NULL)` where `top` slots of the stack are in use. -/
def luaL_checkstack (top : Nat) : Unpacker Unit :=
  if top + EXTRA_STACK > LUAI_MAXSTACK - LUA_MINSTACK then throw (.error "stack overflow")
  else pure ()

/-- The loop over the pairs, up to a key `nil`; the value is unpacked above its key. -/
def unpackPairs (unpack_one : Nat → Unpacker Value) (top : Nat) :
    Nat → Unpacker (List (Value × Value))
  | 0 => throw .fuel
  | n + 1 => do
    let k ← unpack_one top
    if k.isNil then pure []
    else
      let v ← unpack_one (top + 1)
      -- `lua_rawset`
      if k.isNaN then throw (.error "table index is NaN")
      else
        let hash ← unpackPairs unpack_one top n
        pure ((k, v) :: hash)

/-- The size of a table's array, which is behind the type where the cookie does not hold it. -/
def unpackSize (array_size : Nat) : Unpacker Int := do
  if array_size = MAX_COOKIE - 1 then
    let t ← rbReadOr 1 440
    let type := ofLE t
    let cookie := type >>> 3
    if type &&& 7 ≠ TYPE_NUMBER ∨ cookie = TYPE_NUMBER_REAL then invalid_stream 445
    else
      let n ← get_integer cookie
      pure (n.setWidth 32).toInt
  else pure array_size

/-- The table is on the stack while its values are unpacked. -/
def unpack_table (unpack_one : Nat → Unpacker Value) (fuel top array_size : Nat) :
    Unpacker Value := do
  let array_size ← unpackSize array_size
  luaL_checkstack top
  let array ← Codes.times (unpack_one (top + 1)) array_size.toNat
  let hash ← unpackPairs unpack_one (top + 1) fuel
  pure (.table array hash)

def push_value (unpack_table : Nat → Unpacker Value) (type cookie : Nat) : Unpacker Value :=
  match type with
  | TYPE_NIL => pure .nil
  | TYPE_BOOLEAN => pure (.boolean (cookie ≠ 0))
  | TYPE_NUMBER =>
    if cookie = TYPE_NUMBER_REAL then do
      let n ← get_real
      pure (.real n)
    else do
      let n ← get_integer cookie
      pure (.integer n)
  | TYPE_USERDATA => do
    let p ← get_pointer
    pure (.userdata p)
  | TYPE_SHORT_STRING => do
    let s ← get_buffer cookie
    pure (.string s)
  | TYPE_LONG_STRING =>
    if cookie = 2 then do
      let plen ← rbReadOr 2 493
      let s ← get_buffer (ofLE plen)
      pure (.string s)
    else if cookie ≠ 4 then invalid_stream 500
    else do
      let plen ← rbReadOr 4 504
      let s ← get_buffer (ofLE plen)
      pure (.string s)
  | TYPE_TABLE => unpack_table cookie
  | _ => invalid_stream 517

/-- `top` slots of the stack are in use. -/
def unpack_one : Nat → Nat → Unpacker Value
  | 0, _ => throw .fuel
  | fuel + 1, top => do
    let t ← rbReadOr 1 528
    let type := ofLE t
    push_value (unpack_table (unpack_one fuel) fuel top) (type &&& 7) (type >>> 3)

/-- The loop of `luaseri_unpack`, which leaves the values on the stack. -/
def unpackAll (top : Nat) : Nat → Nat → Unpacker (List Value)
  | 0, _ => throw .fuel
  | fuel + 1, i => do
    (if i % 8 = 7 then luaL_checkstack (top + i) else pure () : Unpacker Unit)
    match ← rb_read 1 with
    | none => pure []
    | some t =>
      let type := ofLE t
      let v ← push_value (unpack_table (unpack_one fuel) fuel (top + i)) (type &&& 7) (type >>> 3)
      let vs ← unpackAll top fuel (i + 1)
      pure (v :: vs)

/-- `top` slots of the stack are in use behind `lua_settop`. The fuel is more than an `int` can say
of a buffer's bytes. -/
def luaseri_unpack (top : Nat) (buffer : List UInt8) : Except Fault (List Value) :=
  if buffer.length = 0 then .ok []
  else (unpackAll top (2 ^ 31) 0).run' buffer

end SkynetHotfix.Seri
