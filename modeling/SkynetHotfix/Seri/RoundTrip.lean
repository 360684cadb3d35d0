import Mathlib.Algebra.Ring.Int.Defs
import Mathlib.Data.List.Forall2
import SkynetHotfix.Seri.Basic

/-!
# What is packed is unpacked again

Each kind of value is written as a code that its reader reads as the value, and that no reader takes
for a value when it is cut off (`Coded`). So what `luaseri_unpack` makes of a packed message are the
values, and of a message cut off the first of them, or nothing (`unpack_pack`).
-/

namespace SkynetHotfix.Seri

open Codes LittleEndian

/-! ## The blocks -/

namespace WriteBlock

@[simp] theorem bytes_next (b : WriteBlock) (h : b.ptr = BLOCK_SIZE) :
    (b.next h).bytes = b.bytes := by
  simp [bytes, next]

@[simp] theorem bytes_copy (b : WriteBlock) (buffer : List UInt8)
    (h : b.ptr + buffer.length ≤ BLOCK_SIZE) : (b.copy buffer h).bytes = b.bytes ++ buffer := by
  simp [bytes, copy]

@[simp] theorem bytes_room (b : WriteBlock) : b.room.bytes = b.bytes := by
  unfold room
  split
  · exact b.bytes_next _
  · rfl

theorem ptr_room (b : WriteBlock) : b.room.ptr < BLOCK_SIZE := by
  unfold room
  split
  · show 0 < BLOCK_SIZE
    decide
  · have hptr : b.ptr ≤ BLOCK_SIZE := b.length_current
    omega

theorem len_bytes (b : WriteBlock) : b.len = b.bytes.length := by
  rw [b.len_eq, bytes, List.length_append]

end WriteBlock

theorem bytes_push {n : Nat} {b : WriteBlock} {buffer : List UInt8} (h : buffer.length < n) :
    (push n b buffer).bytes = b.bytes ++ buffer := by
  induction n generalizing b buffer with
  | zero => omega
  | succ n ih =>
    have hroom := b.bytes_room
    have hptr := b.ptr_room
    rw [push]
    generalize b.room = b₁ at hroom hptr
    by_cases hfit : b₁.ptr + buffer.length ≤ BLOCK_SIZE
    · rw [dif_pos hfit, WriteBlock.bytes_copy, hroom]
    · have hlt : (buffer.drop (BLOCK_SIZE - b₁.ptr)).length < n := by
        rw [List.length_drop]
        omega
      rw [dif_neg hfit, ih hlt, WriteBlock.bytes_copy, hroom, List.append_assoc,
        List.take_append_drop]

@[simp] theorem bytes_wb_push (b : WriteBlock) (buffer : List UInt8) :
    (wb_push b buffer).bytes = b.bytes ++ buffer :=
  bytes_push (Nat.lt_succ_self _)

/-- Blocks that are full but for the last are copied whole. -/
theorem seri_eq {full : List (List UInt8)} {current : List UInt8}
    (hfull : ∀ b ∈ full, b.length = BLOCK_SIZE) :
    seri (full ++ [current]) (full.flatten.length + current.length) = full.flatten ++ current := by
  induction full with
  | nil =>
    show (if 0 + current.length ≥ BLOCK_SIZE then current ++ [] else _) = [] ++ current
    split
    · exact List.append_nil _
    · exact List.take_of_length_le (by omega)
  | cons b full ih =>
    have hb := hfull b (.head _)
    have hlen : b.length + full.flatten.length + current.length - BLOCK_SIZE =
        full.flatten.length + current.length := by omega
    rw [List.flatten_cons, List.length_append, List.cons_append, seri, if_pos (by omega), hlen,
      ih fun x hx => hfull x (.tail _ hx), List.append_assoc]

theorem seri_bytes (b : WriteBlock) : seri (b.full ++ [b.current]) b.len = b.bytes := by
  rw [b.len_eq, seri_eq b.length_full]
  rfl

/-! ## Reading -/

/-- The errors of `invalid_stream`. -/
def Invalid (e : Fault) : Prop :=
  ∃ len line : Nat, e = .error s!"Invalid serialize stream {len} (line:{line})"

theorem reads_bytes {sz : Nat} (line : Nat) {c : List UInt8} (h : c.length = sz) :
    Reads Invalid (rbReadOr sz line) c c where
  whole rest := by
    have hread : rb_read sz (c ++ rest) = .ok (some c, rest) := by
      rw [rb_read, if_neg (by rw [List.length_append]; omega), ← h, List.take_left, List.drop_left]
    rw [rbReadOr, bind_ok hread]
    rfl
  short p hp hne := by
    have hlt : p.length < sz := by
      rcases Nat.lt_or_ge p.length c.length with hlt | hge
      · omega
      · exact absurd (hp.eq_of_length_le hge) hne
    have hread : rb_read sz p = .ok (none, p) := by rw [rb_read, if_pos hlt]
    refine ⟨_, ⟨p.length, line, rfl⟩, ?_⟩
    rw [rbReadOr, bind_ok hread]
    rfl

theorem length_bytes {w : Nat} (x : BitVec w) : (bytes x).length = w / 8 := length_toLE ..

theorem ofLE_bytes {w : Nat} (x : BitVec w) (h : 8 * (w / 8) = w) : ofLE (bytes x) = x.toNat := by
  apply ofLE_toLE_of_lt
  calc
    x.toNat < 2 ^ w := x.isLt
    _ = 256 ^ (w / 8) := by
      rw [show 256 = 2 ^ 8 from rfl, ← Nat.pow_mul, h]

@[simp] theorem ofNat_bytes (x : BitVec 64) : BitVec.ofNat 64 (ofLE (bytes x)) = x := by
  rw [ofLE_bytes x rfl, BitVec.ofNat_toNat, BitVec.setWidth_eq]

/-- A type and its cookie, apart again. -/
theorem type_cookie : ∀ t < 8, ∀ c < 32,
    (COMBINE_TYPE t c).toNat &&& 7 = t ∧ (COMBINE_TYPE t c).toNat >>> 3 = c := by
  decide +kernel

/-! ## Numbers -/

/-- `v` fits 32 bits with its sign. -/
theorem signExtend_of_toInt {v : BitVec 64} (h : v = (v.setWidth 32).signExtend 64) :
    -2 ^ 31 ≤ v.toInt ∧ v.toInt < 2 ^ 31 := by
  have hint := congrArg BitVec.toInt h
  rw [BitVec.toInt_signExtend_of_le (by decide)] at hint
  have hlt := (v.setWidth 32).toInt_lt
  have hle := (v.setWidth 32).le_toInt
  omega

theorem toNat_of_nonneg {v : BitVec 64} (h : 0 ≤ v.toInt) : (v.toNat : Int) = v.toInt := by
  rw [BitVec.toInt_eq_toNat_cond] at h ⊢
  split at h <;> omega

theorem ofNat_setWidth {w : Nat} {v : BitVec 64} (h0 : 0 ≤ v.toInt) (h : v.toInt < 2 ^ w) :
    BitVec.ofNat 64 (v.setWidth w).toNat = v := by
  have hv := toNat_of_nonneg h0
  have hlt : v.toNat < 2 ^ w := by
    apply Int.ofNat_lt.mp
    rw [hv]
    exact_mod_cast h
  rw [BitVec.toNat_setWidth, Nat.mod_eq_of_lt hlt, BitVec.ofNat_toNat, BitVec.setWidth_eq]

/-- What `wb_integer` writes: the type of a number with a cookie, then what `get_integer` reads for
this cookie. -/
theorem reads_integer (v : BitVec 64) : ∃ cookie c, cookie < 32 ∧ cookie ≠ TYPE_NUMBER_REAL ∧
    (∀ wb, (wb_integer wb v).bytes = wb.bytes ++ COMBINE_TYPE TYPE_NUMBER cookie :: c) ∧
      Reads Invalid (get_integer cookie) v c := by
  by_cases h0 : v = 0
  · refine ⟨TYPE_NUMBER_ZERO, [], by decide, by decide, fun wb => ?_, ?_⟩
    · rw [wb_integer, if_pos h0, bytes_wb_push]
    · rw [h0]
      exact .pure _
  by_cases hq' : v ≠ (v.setWidth 32).signExtend 64
  · refine ⟨TYPE_NUMBER_QWORD, bytes v, by decide, by decide, fun wb => ?_, ?_⟩
    · rw [wb_integer, if_neg h0, if_pos hq']
      simp
    · refine (reads_bytes 392 (length_bytes v)).bind_pure ?_
      rw [ofNat_bytes]
  have hq := not_not.mp hq'
  obtain ⟨hge, hlt⟩ := signExtend_of_toInt hq
  have hdword : Reads Invalid (get_integer TYPE_NUMBER_DWORD) v (bytes (v.setWidth 32)) := by
    refine (reads_bytes 384 (length_bytes (v.setWidth 32))).bind_pure ?_
    rw [ofLE_bytes (v.setWidth 32) rfl, BitVec.ofNat_toNat, BitVec.setWidth_eq, ← hq]
  by_cases hneg : v.toInt < 0
  · refine ⟨TYPE_NUMBER_DWORD, bytes (v.setWidth 32), by decide, by decide, fun wb => ?_, hdword⟩
    rw [wb_integer, if_neg h0, if_neg hq', if_pos hneg]
    simp
  have hnonneg := Int.not_lt.mp hneg
  by_cases hbyte : v.toInt < 0x100
  · refine ⟨TYPE_NUMBER_BYTE, bytes (v.setWidth 8), by decide, by decide, fun wb => ?_, ?_⟩
    · rw [wb_integer, if_neg h0, if_neg hq', if_neg hneg, if_pos hbyte]
      simp
    · refine (reads_bytes 368 (length_bytes (v.setWidth 8))).bind_pure ?_
      rw [ofLE_bytes (v.setWidth 8) rfl, ofNat_setWidth hnonneg hbyte]
  by_cases hword : v.toInt < 0x10000
  · refine ⟨TYPE_NUMBER_WORD, bytes (v.setWidth 16), by decide, by decide, fun wb => ?_, ?_⟩
    · rw [wb_integer, if_neg h0, if_neg hq', if_neg hneg, if_neg hbyte, if_pos hword]
      simp
    · refine (reads_bytes 376 (length_bytes (v.setWidth 16))).bind_pure ?_
      rw [ofLE_bytes (v.setWidth 16) rfl, ofNat_setWidth hnonneg hword]
  · refine ⟨TYPE_NUMBER_DWORD, bytes (v.setWidth 32), by decide, by decide, fun wb => ?_, hdword⟩
    rw [wb_integer, if_neg h0, if_neg hq', if_neg hneg, if_neg hbyte, if_neg hword]
    simp

theorem reads_real (bits : BitVec 64) : Reads Invalid get_real bits (bytes bits) := by
  refine (reads_bytes 407 (length_bytes bits)).bind_pure ?_
  rw [ofNat_bytes]

theorem reads_pointer (p : BitVec 64) : Reads Invalid get_pointer p (bytes p) := by
  refine (reads_bytes 417 (length_bytes p)).bind_pure ?_
  rw [ofNat_bytes]

/-! ## Strings -/

theorem reads_buffer {str : List UInt8} (h : str.length < 2 ^ 31) :
    Reads Invalid (get_buffer str.length) str str := by
  rw [get_buffer, if_pos h]
  exact reads_bytes 427 rfl

theorem ofLE_length {w n : Nat} (hw : 8 * (w / 8) = w) (h : n < 2 ^ w) :
    ofLE (bytes (BitVec.ofNat w n)) = n := by
  rw [ofLE_bytes _ hw, BitVec.toNat_ofNat, Nat.mod_eq_of_lt h]

theorem reads_string (str : List UInt8) : ∃ type cookie c, type < 8 ∧ cookie < 32 ∧
    (∀ wb, (wb_string wb str).bytes = wb.bytes ++ COMBINE_TYPE type cookie :: c) ∧
      (c.length < 2 ^ 31 → ∀ table,
        Reads Invalid (push_value table type cookie) (.string str) c) := by
  by_cases hshort : str.length < MAX_COOKIE
  · refine ⟨TYPE_SHORT_STRING, str.length, str, by decide, hshort, fun wb => ?_, fun h _ => ?_⟩
    · rw [wb_string, if_pos hshort]
      by_cases hpos : str.length > 0
      · simp [hpos]
      · simp [List.eq_nil_of_length_eq_zero (Nat.eq_zero_of_not_pos hpos)]
    · exact (reads_buffer h).bind_pure rfl
  by_cases hword : str.length < 0x10000
  · refine ⟨TYPE_LONG_STRING, 2, bytes (.ofNat 16 str.length) ++ str, by decide, by decide,
      fun wb => ?_, fun _ _ => ?_⟩
    · rw [wb_string, if_neg hshort, if_pos hword]
      simp
    · refine (reads_bytes 493 (length_bytes (.ofNat 16 str.length))).bind ?_
      rw [ofLE_length rfl hword]
      exact (reads_buffer (by omega)).bind_pure rfl
  · refine ⟨TYPE_LONG_STRING, 4, bytes (.ofNat 32 str.length) ++ str, by decide, by decide,
      fun wb => ?_, fun h _ => ?_⟩
    · rw [wb_string, if_neg hshort, if_neg hword]
      simp
    · rw [List.length_append] at h
      refine (reads_bytes 504 (length_bytes (.ofNat 32 str.length))).bind ?_
      rw [ofLE_length rfl (by omega)]
      exact (reads_buffer (by omega)).bind_pure rfl

/-! ## Tables -/

theorem toInt_setWidth {n : Nat} (h : n < 2 ^ 31) :
    ((BitVec.ofNat 64 n).setWidth 32).toInt = n := by
  rw [BitVec.setWidth_ofNat_of_le (by decide), BitVec.toInt_ofNat', Int.bmod_eq_of_le] <;> omega

/-- A byte with a type and a cookie. -/
theorem ofLE_type {type cookie : Nat} (ht : type < 8) (hc : cookie < 32) :
    ofLE [COMBINE_TYPE type cookie] &&& 7 = type ∧
      ofLE [COMBINE_TYPE type cookie] >>> 3 = cookie := by
  rw [show ofLE [COMBINE_TYPE type cookie] = (COMBINE_TYPE type cookie).toNat from Nat.add_zero _]
  exact type_cookie type ht cookie hc

theorem reads_size (n : Nat) : ∃ cookie c, cookie < 32 ∧
    (∀ wb, (wbTableSize wb n).bytes = wb.bytes ++ COMBINE_TYPE TYPE_TABLE cookie :: c) ∧
      (n < 2 ^ 31 → Reads Invalid (unpackSize cookie) n c) := by
  by_cases hn : n ≥ MAX_COOKIE - 1
  · obtain ⟨cookie, c, hcookie, hreal, hw, hr⟩ := reads_integer (.ofNat 64 n)
    refine ⟨MAX_COOKIE - 1, COMBINE_TYPE TYPE_NUMBER cookie :: c, by decide, fun wb => ?_, fun h => ?_⟩
    · rw [wbTableSize, if_pos hn, hw]
      simp
    · obtain ⟨htype, hshift⟩ := ofLE_type (by decide : TYPE_NUMBER < 8) hcookie
      rw [unpackSize, if_pos rfl]
      refine (reads_bytes 440 (c := [_]) rfl).bind (y := c) ?_
      simp only [htype, hshift]
      rw [if_neg (by omega)]
      refine hr.bind_pure ?_
      rw [toInt_setWidth h]
  · have hlt : n < MAX_COOKIE - 1 := Nat.not_le.mp hn
    refine ⟨n, [], Nat.lt_succ_of_lt hlt, fun wb => ?_, fun _ => ?_⟩
    · rw [wbTableSize, if_neg hn, bytes_wb_push]
    · rw [unpackSize, if_neg (Nat.ne_of_lt hlt)]
      exact .pure _

theorem reads_one {v : Value} {c : List UInt8} {fuel top type cookie : Nat} (ht : type < 8)
    (hc : cookie < 32)
    (h : Reads Invalid (push_value (unpack_table (unpack_one fuel) fuel top) type cookie) v c) :
    Reads Invalid (unpack_one (fuel + 1) top) v (COMBINE_TYPE type cookie :: c) := by
  obtain ⟨htype, hcookie⟩ := ofLE_type ht hc
  refine (reads_bytes 528 (c := [_]) rfl).bind (y := c) ?_
  simp only [htype, hcookie]
  exact h

/-! ## Values -/

/-- The stack has room for a value at this depth: a table is below its values, and a key too. -/
def Room (top depth : Nat) : Prop :=
  top + 2 * (MAX_DEPTH + 1 - depth) + EXTRA_STACK + LUA_MINSTACK ≤ LUAI_MAXSTACK

theorem Room.succ {top depth : Nat} (h : Room top depth) (hd : depth ≤ MAX_DEPTH) :
    Room (top + 1) (depth + 1) ∧ Room (top + 1 + 1) (depth + 1) := by
  unfold Room at h ⊢
  omega

theorem Room.checkstack {top depth : Nat} (h : Room top depth) : luaL_checkstack top = pure () := by
  unfold Room at h
  rw [luaL_checkstack, if_neg (by omega)]

mutual

/-- No table within has a pair whose key is `nil` or NaN, which is so of every table of Lua. -/
def Value.keyed (v : Value) : Bool :=
  match v with
  | .table array hash => keyedArray array && keyedHash hash
  | _ => true
termination_by structural v

def keyedArray (array : List Value) : Bool :=
  match array with
  | [] => true
  | v :: array => v.keyed && keyedArray array
termination_by structural array

def keyedHash (hash : List (Value × Value)) : Bool :=
  match hash with
  | [] => true
  | p :: hash => keyedPair p && keyedHash hash
termination_by structural hash

def keyedPair (p : Value × Value) : Bool :=
  match p with
  | (k, v) => !k.isNil && !k.isNaN && k.keyed && v.keyed
termination_by structural p

end

/-- `f` writes `c` behind what is there. -/
def Writes (f : WriteBlock → Except Fault WriteBlock) (c : List UInt8) : Prop :=
  ∀ wb, ∃ wb', f wb = .ok wb' ∧ wb'.bytes = wb.bytes ++ c

theorem Writes.bind {f g : WriteBlock → Except Fault WriteBlock} {x y : List UInt8}
    (hf : Writes f x) (hg : Writes g y) : Writes (fun wb => f wb >>= g) (x ++ y) := by
  intro wb
  obtain ⟨wb₁, h₁, hb₁⟩ := hf wb
  obtain ⟨wb₂, h₂, hb₂⟩ := hg wb₁
  refine ⟨wb₂, ?_, ?_⟩
  · show (f wb >>= g) = _
    rw [h₁]
    exact h₂
  · rw [hb₂, hb₁, List.append_assoc]

theorem ok_of_bind {α : Type} {x : Except Fault WriteBlock} {f : WriteBlock → Except Fault α}
    {a : α} (h : (x >>= f) = .ok a) : ∃ wb, x = .ok wb ∧ f wb = .ok a := by
  cases x with
  | error e => cases h
  | ok wb => exact ⟨wb, rfl, h⟩

theorem depth_le {v : Value} {depth : Nat} {wb wb' : WriteBlock}
    (h : pack_one v depth wb = .ok wb') : depth ≤ MAX_DEPTH := by
  by_contra hd
  rw [pack_one.eq_def, if_pos (Nat.lt_of_not_le hd)] at h
  cases h

/-- `c` is the code of `v` at this depth. -/
structure Coded (depth : Nat) (v : Value) (c : List UInt8) : Prop where
  writes : Writes (pack_one v depth) c
  ne_nil : c ≠ []
  reads : v.keyed → c.length < 2 ^ 31 → ∀ fuel top, c.length ≤ fuel → Room top depth →
    Reads Invalid (unpack_one fuel top) v c

structure CodedArray (depth : Nat) (array : List Value) (cs : List (List UInt8)) : Prop where
  writes : Writes (wb_table_array array depth) cs.flatten
  length_le : array.length ≤ cs.flatten.length
  reads : keyedArray array → cs.flatten.length < 2 ^ 31 → ∀ fuel top,
    cs.flatten.length ≤ fuel → Room top depth → All Invalid (unpack_one fuel top) array cs

structure CodedHash (depth : Nat) (hash : List (Value × Value)) (c : List UInt8) : Prop where
  writes : Writes (wb_table_hash hash depth) c
  reads : keyedHash hash → c.length < 2 ^ 31 → ∀ fuel top n, c.length ≤ fuel → c.length ≤ n →
    Room top depth → Room (top + 1) depth →
      Reads Invalid (unpackPairs (unpack_one fuel) top n) hash c

theorem Coded.of_cookie {depth type cookie : Nat} {v : Value} {c : List UInt8} (ht : type < 8)
    (hc : cookie < 32) (hw : Writes (pack_one v depth) (COMBINE_TYPE type cookie :: c))
    (hr : v.keyed → c.length + 1 < 2 ^ 31 → ∀ fuel top, c.length ≤ fuel → Room top depth →
      Reads Invalid (push_value (unpack_table (unpack_one fuel) fuel top) type cookie) v c) :
    Coded depth v (COMBINE_TYPE type cookie :: c) where
  writes := hw
  ne_nil := List.cons_ne_nil _ _
  reads hk hlen fuel top hfuel hroom := by
    cases fuel with
    | zero => cases hfuel
    | succ fuel =>
      exact reads_one ht hc (hr hk hlen fuel top (Nat.le_of_succ_le_succ hfuel) hroom)

/-- A value that is written without a fault, by one of the functions above. -/
theorem Coded.of_write {depth type cookie : Nat} {v : Value} {c : List UInt8}
    {f : WriteBlock → WriteBlock} (ht : type < 8) (hc : cookie < 32)
    (hf : ∀ wb, pack_one v depth wb = .ok (f wb))
    (hw : ∀ wb, (f wb).bytes = wb.bytes ++ COMBINE_TYPE type cookie :: c)
    (hr : c.length + 1 < 2 ^ 31 → ∀ table,
      Reads Invalid (push_value table type cookie) v c) :
    Coded depth v (COMBINE_TYPE type cookie :: c) :=
  .of_cookie ht hc (fun wb => ⟨f wb, hf wb, hw wb⟩) fun _ hlen _ _ _ _ => hr hlen _

theorem CodedArray.nil {depth : Nat} : CodedArray depth [] [] where
  writes wb := ⟨wb, rfl, (List.append_nil _).symm⟩
  length_le := Nat.le_refl _
  reads _ _ _ _ _ _ := .nil

theorem Coded.cons {depth : Nat} {v : Value} {array : List Value} {c : List UInt8}
    {cs : List (List UInt8)} (hv : Coded depth v c) (harray : CodedArray depth array cs) :
    CodedArray depth (v :: array) (c :: cs) where
  writes := hv.writes.bind harray.writes
  length_le := by
    have hpos := List.length_pos_iff.mpr hv.ne_nil
    have hle := harray.length_le
    rw [List.flatten_cons, List.length_append, List.length_cons]
    omega
  reads hk hlen fuel top hfuel hroom := by
    rw [keyedArray, Bool.and_eq_true] at hk
    rw [List.flatten_cons, List.length_append] at hlen hfuel
    exact .cons (hv.reads hk.1 (by omega) fuel top (by omega) hroom)
      (harray.reads hk.2 (by omega) fuel top (by omega) hroom)

/-- The `nil` that ends the pairs. -/
theorem reads_nil {fuel top : Nat} (h : 0 < fuel) :
    Reads Invalid (unpack_one fuel top) .nil [COMBINE_TYPE TYPE_NIL 0] := by
  cases fuel with
  | zero => cases h
  | succ fuel => exact reads_one (by decide) (by decide) (.pure _)

theorem CodedHash.nil {depth : Nat} : CodedHash depth [] [COMBINE_TYPE TYPE_NIL 0] where
  writes wb := ⟨wb_nil wb, rfl, bytes_wb_push ..⟩
  reads _ _ fuel top n hfuel hn _ _ := by
    cases n with
    | zero => cases hn
    | succ n => exact (reads_nil hfuel).bind_pure rfl

theorem CodedHash.cons {depth : Nat} {k v : Value} {hash : List (Value × Value)}
    {ck cv c : List UInt8} (hhash : CodedHash depth hash c) (hk : Coded depth k ck)
    (hv : Coded depth v cv) : CodedHash depth ((k, v) :: hash) (ck ++ cv ++ c) where
  writes := (hk.writes.bind hv.writes).bind hhash.writes
  reads hkeyed hlen fuel top n hfuel hn hroom hroom' := by
    have hpos := List.length_pos_iff.mpr hk.ne_nil
    rw [List.append_assoc, List.length_append, List.length_append] at hlen hfuel hn
    cases n with
    | zero => omega
    | succ n =>
      simp only [keyedHash, keyedPair, Bool.and_eq_true, Bool.not_eq_true'] at hkeyed
      obtain ⟨⟨⟨⟨hnil, hnan⟩, hkk⟩, hkv⟩, hkh⟩ := hkeyed
      rw [List.append_assoc]
      refine (hk.reads hkk (by omega) fuel top (by omega) hroom).bind ?_
      rw [hnil, if_neg Bool.false_ne_true]
      refine (hv.reads hkv (by omega) fuel (top + 1) (by omega) hroom').bind ?_
      rw [hnan, if_neg Bool.false_ne_true]
      refine (hhash.reads hkh (by omega) fuel top n (by omega) (by omega) hroom hroom').bind_pure ?_
      rfl

theorem coded_table {depth : Nat} {array : List Value} {hash : List (Value × Value)}
    {cs : List (List UInt8)} {c : List UInt8} (hd : depth ≤ MAX_DEPTH)
    (harray : CodedArray (depth + 1) array cs) (hhash : CodedHash (depth + 1) hash c) :
    ∃ c, Coded depth (.table array hash) c := by
  obtain ⟨cookie, c₀, hcookie, hw, hr⟩ := reads_size array.length
  refine ⟨_, .of_cookie (c := c₀ ++ (cs.flatten ++ c)) (by decide : TYPE_TABLE < 8) hcookie
    (fun wb => ?_) fun hk hlen fuel top hfuel hroom => ?_⟩
  · obtain ⟨wb', hok, hb⟩ := (harray.writes.bind hhash.writes) (wbTableSize wb array.length)
    refine ⟨wb', ?_, by rw [hb, hw, List.append_assoc]; rfl⟩
    rw [pack_one.eq_def, if_neg (Nat.not_lt.mpr hd)]
    exact hok
  · rw [Value.keyed.eq_def, Bool.and_eq_true] at hk
    simp only [List.length_append] at hlen hfuel
    have hsize := harray.length_le
    obtain ⟨hroom₁, hroom₂⟩ := hroom.succ hd
    show Reads Invalid (unpack_table (unpack_one fuel) fuel top cookie) _ _
    simp only [unpack_table, hroom.checkstack, pure_bind]
    refine (hr (by omega)).bind ?_
    refine (harray.reads hk.1 (by omega) fuel (top + 1) (by omega) hroom₁).times.bind ?_
    refine (hhash.reads hk.2 (by omega) fuel (top + 1) fuel (by omega) (by omega) hroom₁
      hroom₂).bind_pure rfl

/-- The value that is not a table. -/
theorem coded_leaf {v : Value} {depth : Nat} {wb wb' : WriteBlock}
    (h : pack_one v depth wb = .ok wb') (hv : ∀ array hash, v ≠ .table array hash) :
    ∃ c, Coded depth v c := by
  have hd := depth_le h
  have hpack : ∀ wb, pack_one v depth wb = _ := fun wb =>
    (pack_one.eq_def v depth wb).trans (if_neg (Nat.not_lt.mpr hd))
  cases v with
  | nil =>
    exact ⟨_, .of_write (f := wb_nil) (by decide : TYPE_NIL < 8) (by decide : 0 < 32) hpack
      (fun wb => bytes_wb_push ..) fun _ _ => .pure _⟩
  | boolean b =>
    refine ⟨_, .of_write (f := (wb_boolean · b)) (by decide : TYPE_BOOLEAN < 8) ?_ hpack
      (fun wb => bytes_wb_push ..) fun _ _ => ?_⟩
    · split <;> decide
    · cases b <;> exact .pure _
  | integer n =>
    obtain ⟨cookie, c, hcookie, hreal, hw, hr⟩ := reads_integer n
    refine ⟨_, .of_write (by decide : TYPE_NUMBER < 8) hcookie hpack hw fun _ _ => ?_⟩
    rw [push_value, if_neg hreal]
    exact hr.bind_pure rfl
  | real bits =>
    refine ⟨_, .of_write (c := bytes bits) (by decide : TYPE_NUMBER < 8)
      (by decide : TYPE_NUMBER_REAL < 32) hpack (fun wb => ?_) fun _ _ => ?_⟩
    · simp [wb_real]
    · exact (reads_real bits).bind_pure rfl
  | userdata p =>
    refine ⟨_, .of_write (c := bytes p) (by decide : TYPE_USERDATA < 8) (by decide : 0 < 32) hpack
      (fun wb => ?_) fun _ _ => ?_⟩
    · rw [wb_pointer, bytes_wb_push, bytes_wb_push, List.append_assoc]
      rfl
    · exact (reads_pointer p).bind_pure rfl
  | string s =>
    obtain ⟨type, cookie, c, htype, hcookie, hw, hr⟩ := reads_string s
    exact ⟨_, .of_write htype hcookie hpack hw fun hlen => hr (by omega)⟩
  | table array hash => exact absurd rfl (hv array hash)
  | other typename =>
    rw [hpack] at h
    cases h

mutual

theorem coded (v : Value) {depth : Nat} {wb wb' : WriteBlock}
    (h : pack_one v depth wb = .ok wb') : ∃ c, Coded depth v c := by
  match v with
  | .table array hash =>
    have hd := depth_le h
    rw [pack_one.eq_def, if_neg (Nat.not_lt.mpr hd)] at h
    obtain ⟨wb₁, harray, hhash⟩ := ok_of_bind h
    obtain ⟨cs, harray⟩ := coded_array array harray
    obtain ⟨c, hhash⟩ := coded_hash hash hhash
    exact coded_table hd harray hhash
  | .nil | .boolean _ | .integer _ | .real _ | .userdata _ | .string _ | .other _ =>
    exact coded_leaf h fun _ _ => Value.noConfusion
termination_by structural v

theorem coded_array (array : List Value) {depth : Nat} {wb wb' : WriteBlock}
    (h : wb_table_array array depth wb = .ok wb') : ∃ cs, CodedArray depth array cs := by
  match array with
  | [] => exact ⟨[], .nil⟩
  | v :: array =>
    obtain ⟨wb₁, hv, harray⟩ := ok_of_bind h
    obtain ⟨c, hv⟩ := coded v hv
    obtain ⟨cs, harray⟩ := coded_array array harray
    exact ⟨c :: cs, hv.cons harray⟩
termination_by structural array

theorem coded_hash (hash : List (Value × Value)) {depth : Nat} {wb wb' : WriteBlock}
    (h : wb_table_hash hash depth wb = .ok wb') : ∃ c, CodedHash depth hash c := by
  match hash with
  | [] => exact ⟨_, .nil⟩
  | p :: hash =>
    obtain ⟨wb₁, hp, hhash⟩ := ok_of_bind h
    obtain ⟨ck, cv, hk, hv⟩ := coded_pair p hp
    obtain ⟨c, hhash⟩ := coded_hash hash hhash
    exact ⟨_, hhash.cons hk hv⟩
termination_by structural hash

theorem coded_pair (p : Value × Value) {depth : Nat} {wb wb' : WriteBlock}
    (h : wbPair p depth wb = .ok wb') :
    ∃ ck cv, Coded depth p.1 ck ∧ Coded depth p.2 cv := by
  match p with
  | (k, v) =>
    obtain ⟨wb₁, hk, hv⟩ := ok_of_bind h
    obtain ⟨ck, hk⟩ := coded k hk
    obtain ⟨cv, hv⟩ := coded v hv
    exact ⟨ck, cv, hk, hv⟩
termination_by structural p

end

/-! ## Messages -/

theorem coded_from {vs : List Value} {wb wb' : WriteBlock} (h : pack_from vs wb = .ok wb') :
    ∃ cs, List.Forall₂ (Coded 0) vs cs := by
  induction vs generalizing wb with
  | nil => exact ⟨[], .nil⟩
  | cons v vs ih =>
    obtain ⟨wb₁, hv, hvs⟩ := ok_of_bind h
    obtain ⟨c, hc⟩ := coded v hv
    obtain ⟨cs, hcs⟩ := ih hvs
    exact ⟨c :: cs, .cons hc hcs⟩

theorem writes_from {vs : List Value} {cs : List (List UInt8)}
    (h : List.Forall₂ (Coded 0) vs cs) : Writes (pack_from vs) cs.flatten := by
  induction h with
  | nil => exact fun wb => ⟨wb, rfl, (List.append_nil _).symm⟩
  | cons hv _ ih => exact hv.writes.bind ih

theorem pack_eq {vs : List Value} {cs : List (List UInt8)} (h : List.Forall₂ (Coded 0) vs cs) :
    luaseri_pack vs = if cs.flatten.length < 2 ^ 31 then .ok cs.flatten else .error .overflow := by
  obtain ⟨wb, hok, hb⟩ := writes_from h wb_init
  rw [show wb_init.bytes = [] from rfl, List.nil_append] at hb
  rw [luaseri_pack, hok, ← hb, ← wb.len_bytes, ← seri_bytes]
  rfl

/-- The stack has room for `n` values. -/
def RoomFor (top n : Nat) : Prop := Room (top + n) 0

theorem RoomFor.le {top n i : Nat} (h : RoomFor top n) (hi : i ≤ n) : Room (top + i) 0 := by
  unfold RoomFor Room at h
  unfold Room
  omega

/-- The check that the loop makes at every eighth value. -/
theorem check_eq {top i : Nat} (h : i % 8 = 7 → luaL_checkstack (top + i) = pure ()) :
    (if i % 8 = 7 then luaL_checkstack (top + i) else pure () : Unpacker Unit) = pure () := by
  split
  next hi => exact h hi
  next => rfl

theorem unpackAll_nil {top i : Nat} (hcheck : i % 8 = 7 → luaL_checkstack (top + i) = pure ())
    (fuel : Nat) : unpackAll top (fuel + 1) i [] = .ok ([], []) := by
  rw [unpackAll, check_eq hcheck]
  rfl

/-- The loop reads a type, and what is behind it, as `unpack_one` does. -/
theorem unpackAll_succ {s : List UInt8} (hs : s ≠ []) {top fuel i : Nat}
    (hcheck : i % 8 = 7 → luaL_checkstack (top + i) = pure ()) :
    unpackAll top (fuel + 1) i s = (do
      let v ← unpack_one (fuel + 1) (top + i)
      let vs ← unpackAll top fuel (i + 1)
      pure (v :: vs)) s := by
  cases s with
  | nil => exact absurd rfl hs
  | cons b s =>
    have hread : rb_read 1 (b :: s) = .ok (some [b], s) := rfl
    have hor : rbReadOr 1 528 (b :: s) = .ok ([b], s) := by
      rw [rbReadOr, bind_ok hread]
      rfl
    rw [unpackAll, check_eq hcheck, pure_bind, bind_ok hread, unpack_one, bind_assoc, bind_ok hor]

theorem unpackAll_whole {vs : List Value} {cs : List (List UInt8)}
    (h : List.Forall₂ (Coded 0) vs cs) (hkeyed : ∀ v ∈ vs, v.keyed) {top n i : Nat}
    (hlen : cs.flatten.length < 2 ^ 31) (hle : cs.flatten.length ≤ n)
    (hroom : RoomFor top (i + vs.length)) :
    unpackAll top (n + 1) i cs.flatten = .ok (vs, []) := by
  have hhere : Room (top + i) 0 := hroom.le (Nat.le_add_right _ _)
  induction h generalizing n i with
  | nil => exact unpackAll_nil (fun _ => hhere.checkstack) n
  | @cons v c vs cs hv _ ih =>
    have hpos := List.length_pos_iff.mpr hv.ne_nil
    rw [List.flatten_cons] at hlen hle ⊢
    rw [List.length_append] at hlen hle
    rw [List.length_cons, ← Nat.add_assoc, Nat.add_right_comm] at hroom
    obtain ⟨m, rfl⟩ : ∃ m, n = m + 1 := Nat.exists_eq_succ_of_ne_zero (by omega)
    have hread := hv.reads (hkeyed v (.head _)) (by omega) (m + 1 + 1) (top + i) (by omega) hhere
    have hvs := ih (fun v hv => hkeyed v (.tail _ hv)) (by omega) (n := m) (by omega) hroom
      (hroom.le (Nat.le_add_right _ _))
    rw [unpackAll_succ (List.append_ne_nil_of_left_ne_nil hv.ne_nil _) fun _ => hhere.checkstack,
      bind_ok (hread.whole _), bind_ok hvs]
    rfl

/-- A message that is cut off, between two values or within one. -/
theorem unpackAll_prefix {vs : List Value} {cs : List (List UInt8)}
    (h : List.Forall₂ (Coded 0) vs cs) (hkeyed : ∀ v ∈ vs, v.keyed) {p : List UInt8}
    {top n i : Nat} (hp : p <+: cs.flatten) (hlen : cs.flatten.length < 2 ^ 31)
    (hle : cs.flatten.length ≤ n) (hroom : RoomFor top (i + vs.length)) :
    (∃ k, p = (cs.take k).flatten) ∨ ∃ e, Invalid e ∧ unpackAll top (n + 1) i p = .error e := by
  induction h generalizing p n i with
  | nil => exact .inl ⟨0, List.prefix_nil.mp hp⟩
  | @cons v c vs cs hv _ ih =>
    by_cases hnil : p = []
    · exact .inl ⟨0, hnil⟩
    have hhere : Room (top + i) 0 := hroom.le (Nat.le_add_right _ _)
    have hpos := List.length_pos_iff.mpr hv.ne_nil
    rw [List.flatten_cons, List.length_append] at hlen hle
    rw [List.length_cons, ← Nat.add_assoc, Nat.add_right_comm] at hroom
    obtain ⟨m, rfl⟩ : ∃ m, n = m + 1 := Nat.exists_eq_succ_of_ne_zero (by omega)
    have hread := hv.reads (hkeyed v (.head _)) (by omega) (m + 1 + 1) (top + i) (by omega) hhere
    rw [unpackAll_succ hnil fun _ => hhere.checkstack]
    rcases prefix_append hp with ⟨hpc, hne⟩ | ⟨q, rfl, hq⟩
    · obtain ⟨e, hcut, he⟩ := hread.short p hpc hne
      exact .inr ⟨e, hcut, bind_error he⟩
    · rw [bind_ok (hread.whole q)]
      rcases ih (fun v hv => hkeyed v (.tail _ hv)) hq (by omega) (n := m) (by omega) hroom with
        ⟨k, rfl⟩ | ⟨e, hcut, he⟩
      · exact .inl ⟨k + 1, rfl⟩
      · exact .inr ⟨e, hcut, bind_error he⟩

theorem luaseri_unpack_eq (top : Nat) (buffer : List UInt8) :
    luaseri_unpack top buffer = (unpackAll top (2147483647 + 1) 0).run' buffer := by
  unfold luaseri_unpack
  split
  next h =>
    rw [List.eq_nil_of_length_eq_zero h]
    rfl
  next => rfl

theorem coded_of_pack {vs : List Value} {buffer : List UInt8} (h : luaseri_pack vs = .ok buffer) :
    ∃ cs, List.Forall₂ (Coded 0) vs cs ∧ cs.flatten = buffer ∧ cs.flatten.length < 2 ^ 31 := by
  obtain ⟨wb, hfrom, -⟩ := ok_of_bind h
  obtain ⟨cs, hcs⟩ := coded_from hfrom
  rw [pack_eq hcs] at h
  split at h
  next hlen => exact ⟨cs, hcs, Except.ok.inj h, hlen⟩
  next => cases h

theorem unpack_whole {vs : List Value} {cs : List (List UInt8)} {top : Nat}
    (h : List.Forall₂ (Coded 0) vs cs) (hkeyed : ∀ v ∈ vs, v.keyed)
    (hlen : cs.flatten.length < 2 ^ 31) (hroom : RoomFor top vs.length) :
    luaseri_unpack top cs.flatten = .ok vs := by
  rw [luaseri_unpack_eq, StateT.run',
    unpackAll_whole h hkeyed hlen (n := 2147483647) (by omega) (by rwa [Nat.zero_add])]
  rfl

/-- What is packed is unpacked again, where the stack has room for it; and a message that is cut off
is what its first values are packed as, and unpacked to them, or it is refused. -/
theorem unpack_pack {vs : List Value} {buffer : List UInt8} {top : Nat}
    (hkeyed : ∀ v ∈ vs, v.keyed) (hroom : RoomFor top vs.length)
    (h : luaseri_pack vs = .ok buffer) : luaseri_unpack top buffer = .ok vs ∧
    ∀ p, p <+: buffer →
      (∃ k, luaseri_pack (vs.take k) = .ok p ∧ luaseri_unpack top p = .ok (vs.take k)) ∨
        ∃ e, Invalid e ∧ luaseri_unpack top p = .error e := by
  obtain ⟨cs, hcs, rfl, hlen⟩ := coded_of_pack h
  refine ⟨unpack_whole hcs hkeyed hlen hroom, fun p hp => ?_⟩
  rcases unpackAll_prefix hcs hkeyed hp hlen (n := 2147483647) (by omega)
      (by rwa [Nat.zero_add]) with ⟨k, rfl⟩ | ⟨e, hinvalid, he⟩
  · have htake := List.forall₂_take k hcs
    have hle := hp.length_le
    have hroom' : RoomFor top (vs.take k).length := hroom.le (List.length_take_le' k vs)
    refine .inl ⟨k, ?_,
      unpack_whole htake (fun v hv => hkeyed v (List.mem_of_mem_take hv)) ?_ hroom'⟩
    · rw [pack_eq htake, if_pos (by omega)]
    · omega
  · refine .inr ⟨e, hinvalid, ?_⟩
    rw [luaseri_unpack_eq, StateT.run', he]
    rfl

def sample : List Value :=
  [.table [.integer 5, .string [1, 2, 3], .table [] []]
    [(.string [7], .integer (-2)), (.boolean true, .real 7)], .nil, .integer 70000]

def sampleBuffer : List UInt8 :=
  [30, 10, 5, 28, 1, 2, 3, 6, 0, 12, 7, 34, 254, 255, 255, 255, 9, 66, 7, 0, 0, 0, 0, 0, 0, 0, 0, 0,
    34, 112, 17, 1, 0]

theorem unpack_pack_sample : luaseri_pack sample = .ok sampleBuffer ∧
    luaseri_unpack 2 sampleBuffer = .ok sample ∧ ∀ p, p <+: sampleBuffer →
      (∃ k, luaseri_pack (sample.take k) = .ok p ∧ luaseri_unpack 2 p = .ok (sample.take k)) ∨
        ∃ e, Invalid e ∧ luaseri_unpack 2 p = .error e := by
  have hpack : luaseri_pack sample = .ok sampleBuffer := by decide +kernel
  have hroom : RoomFor 2 sample.length := by
    show 2 + 3 + 2 * 33 + 5 + 20 ≤ 1000000
    decide
  exact ⟨hpack, unpack_pack (by decide) hroom hpack⟩

end SkynetHotfix.Seri
