import Mathlib.Data.List.Pairwise
import Mathlib.Data.Set.Insert
import Mathlib.Logic.Function.Basic
import SkynetHotfix.Lib.BinarySearch
import SkynetHotfix.Lib.Refine

/-!
# Handles and names

`skynet_handle.c`: the contexts by their handles, in slots that double when they are full, and the
names of handles, in an array that is kept sorted. Each function holds the lock from start to end.

For every run they are a set of handles and a map of names (`Registry`): a new handle is none that
is there, a handle is found until it is retired, and a name until its handle is (`refines`).
-/

namespace SkynetHotfix.Skynet

open Function (update)
open BinarySearch

abbrev DEFAULT_SLOT_SIZE : Nat := 4
abbrev MAX_SLOT_SIZE : Nat := 0x40000000
abbrev HANDLE_MASK : Nat := 0xffffff
abbrev HANDLE_REMOTE_SHIFT : Nat := 24

structure HandleName where
  name : List UInt8
  handle : Nat
deriving DecidableEq, Inhabited

/-- `struct handle_storage`; a context is known by its handle. -/
structure HandleStorage where
  harbor : Nat
  handle_index : Nat
  slot_size : Nat
  slot : Nat → Option Nat
  name_cap : Nat
  name_count : Nat
  name : Nat → HandleName

namespace HandleStorage

def skynet_handle_init (harbor : Nat) : HandleStorage where
  harbor := (harbor &&& 0xff) <<< HANDLE_REMOTE_SHIFT
  handle_index := 1
  slot_size := DEFAULT_SLOT_SIZE
  slot := fun _ => none
  name_cap := 2
  name_count := 0
  name := fun _ => default

variable (s : HandleStorage)

def hash (handle : Nat) : Nat := handle &&& (s.slot_size - 1)

/-- The loop of `skynet_handle_register` over the slots, from `i` on. -/
def freeHandle : (n i : Nat) → Option Nat
  | 0, _ => none
  | n + 1, i =>
    let handle := (i + s.handle_index) &&& HANDLE_MASK
    if s.slot (s.hash handle) = none then some handle else freeHandle n (i + 1)

/-- Its loop over the slots that it doubles, from `i` on; `none` where the assertion fails, or a
slot is empty. -/
def rehash : (n i : Nat) → (new_slot : Nat → Option Nat) → Option (Nat → Option Nat)
  | 0, _, new_slot => some new_slot
  | n + 1, i, new_slot => do
    let handle ← s.slot i
    let hash := handle &&& (s.slot_size * 2 - 1)
    guard (new_slot hash = none)
    rehash n (i + 1) (update new_slot hash (some handle))

def grow : Option HandleStorage := do
  guard (s.slot_size * 2 - 1 ≤ HANDLE_MASK)
  let new_slot ← s.rehash s.slot_size 0 fun _ => none
  some { s with slot := new_slot, slot_size := s.slot_size * 2 }

/-- `n` turns of `skynet_handle_register`; the storage, and the handle. -/
def register : (n : Nat) → HandleStorage → Option (HandleStorage × Nat)
  | 0, _ => none
  | n + 1, s =>
    match s.freeHandle s.slot_size 0 with
    | some handle => some ({ s with
        slot := update s.slot (s.hash handle) (some (handle ||| s.harbor))
        handle_index := handle + 1 }, handle ||| s.harbor)
    | none => s.grow.bind (register n)

/-- Slots that have been doubled have a free one. -/
def skynet_handle_register : Option (HandleStorage × Nat) := register 2 s

/-- The loop of `skynet_handle_retire` over the names, from `i` on. -/
def retireNames (handle : Nat) : (n i j : Nat) → (name : Nat → HandleName) →
    Nat × (Nat → HandleName)
  | 0, _, j, name => (j, name)
  | n + 1, i, j, name =>
    if (name i).handle = handle then retireNames handle n (i + 1) j name
    else retireNames handle n (i + 1) (j + 1) (if i ≠ j then update name j (name i) else name)

/-- Also whether the context is to be released. -/
def skynet_handle_retire (handle : Nat) : HandleStorage × Bool :=
  if s.slot (s.hash handle) = some handle then
    let names := retireNames handle s.name_count 0 0 s.name
    ({ s with
      slot := update s.slot (s.hash handle) none
      name_count := names.1
      name := names.2 }, true)
  else (s, false)

/-- Whether there is a context. -/
def skynet_handle_grab (handle : Nat) : Bool :=
  s.slot (s.hash handle) = some handle

/-- `strcmp` with the names. -/
def strcmp (name : List UInt8) (mid : Nat) : Ordering := compare (s.name mid).name name

def skynet_handle_findname (name : List UInt8) : Nat :=
  match search (s.strcmp name) s.name_count 0 s.name_count with
  | .inl mid => (s.name mid).handle
  | .inr _ => 0

/-- The loop of `_insert_name_before` that moves the names up, down from `i`. -/
def shift (before : Nat) : (i : Nat) → (name : Nat → HandleName) → Nat → HandleName
  | 0, name => name
  | i + 1, name =>
    if i + 1 > before then shift before i (update name (i + 1) (name i)) else name

def insert_name_before (name : List UInt8) (handle before : Nat) : Option HandleStorage :=
  if s.name_count ≥ s.name_cap then do
    guard (s.name_cap * 2 ≤ MAX_SLOT_SIZE)
    let n := fun i => if i < before then s.name i else s.name (i - 1)
    some { s with
      name_cap := s.name_cap * 2
      name := update n before ⟨name, handle⟩
      name_count := s.name_count + 1 }
  else
    some { s with
      name := update (shift before s.name_count s.name) before ⟨name, handle⟩
      name_count := s.name_count + 1 }

/-- `_insert_name`, and what it returns. -/
def skynet_handle_namehandle (handle : Nat) (name : List UInt8) :
    Option (HandleStorage × Option (List UInt8)) :=
  match search (s.strcmp name) s.name_count 0 s.name_count with
  | .inl _ => some (s, none)
  | .inr before => do
    let s ← s.insert_name_before name handle before
    some (s, some name)

end HandleStorage

inductive HandleOp
  | register
  | retire (handle : Nat)
  | grab (handle : Nat)
  | findname (name : List UInt8)
  | namehandle (handle : Nat) (name : List UInt8)

inductive HandleResult
  | handle (handle : Nat)
  | found (b : Bool)
  | name (name : Option (List UInt8))

def HandleStorage.exec (s : HandleStorage) : HandleOp → Option (HandleStorage × HandleResult)
  | .register => s.skynet_handle_register.map fun r => (r.1, .handle r.2)
  | .retire handle => some ((s.skynet_handle_retire handle).1,
      .found (s.skynet_handle_retire handle).2)
  | .grab handle => some (s, .found (s.skynet_handle_grab handle))
  | .findname name => some (s, .handle (s.skynet_handle_findname name))
  | .namehandle handle name =>
    (s.skynet_handle_namehandle handle name).map fun r => (r.1, .name r.2)

/-- There is a handle left to give, and room for a name. -/
def HandleStorage.Room (s : HandleStorage) : HandleOp → Prop
  | .register => ∃ handle ≤ HANDLE_MASK, s.skynet_handle_grab (handle ||| s.harbor) = false
  | .namehandle _ _ => s.name_count < MAX_SLOT_SIZE
  | _ => True

/-- What the storage is for. -/
structure Registry where
  registered : Set Nat
  named : List UInt8 → Option Nat

namespace Registry

def new : Registry := ⟨∅, fun _ => none⟩

inductive Step : Registry → HandleOp → HandleResult → Registry → Prop
  | register {a : Registry} (handle : Nat) : handle ∉ a.registered →
      Step a .register (.handle handle) { a with registered := insert handle a.registered }
  | retire {a : Registry} {handle : Nat} : handle ∈ a.registered →
      Step a (.retire handle) (.found true)
        ⟨a.registered \ {handle}, fun name => (a.named name).filter (· ≠ handle)⟩
  | unregistered {a : Registry} {handle : Nat} : handle ∉ a.registered →
      Step a (.retire handle) (.found false) a
  | grab {a : Registry} {handle : Nat} {b : Bool} : (b = true ↔ handle ∈ a.registered) →
      Step a (.grab handle) (.found b) a
  | findname {a : Registry} {name : List UInt8} :
      Step a (.findname name) (.handle ((a.named name).getD 0)) a
  | namehandle {a : Registry} {handle : Nat} {name : List UInt8} : a.named name = none →
      Step a (.namehandle handle name) (.name (some name))
        { a with named := update a.named name (some handle) }
  | taken {a : Registry} {handle : Nat} {name : List UInt8} : a.named name ≠ none →
      Step a (.namehandle handle name) (.name none) a

end Registry

end SkynetHotfix.Skynet
