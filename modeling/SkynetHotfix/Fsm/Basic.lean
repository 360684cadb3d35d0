import Mathlib.Logic.Function.Basic

/-!
# The finite state machine

`common/base/fsm.lua`. A machine keeps its transitions in the table `stt`,
under the state and the event with a dot between them, the wildcard `*` being a
name like any other; the exception handler is under `*.*`. Strings are byte
strings.

`fire` sets the state and then calls the action, last thing: what an action
does to the machine is more calls after this one.
-/

namespace SkynetHotfix.Fsm

open Function (update)

variable {A : Type}

abbrev Str := List UInt8

/-- The bytes of a text. -/
def bytes (s : String) : Str := s.toUTF8.toList

/-- `SEPARATOR` -/
def separator : Str := [46]

/-- `ANY` -/
def any : Str := [42]

/-- `ANYSTATE` -/
def anystate : Str := any ++ separator

/-- `ANYEVENT` -/
def anyevent : Str := separator ++ any

/-- `UNKNOWN` -/
def unknown : Str := anystate ++ any

/-- A row of a table of transitions. -/
structure Row (A : Type) where
  oldState : Str
  event : Str
  newState : Str
  action : Option A

/-- The keys of `stt`: strings, and the function `exception`. -/
inductive Key
  | str (s : Str)
  | exception
deriving DecidableEq

/-- An action is one of the table, `nil` where the row has none, or `exception`. -/
inductive Action (A : Type)
  | given (action : Option A)
  | exception
deriving DecidableEq

/-- An entry of `stt`. -/
structure Entry (A : Type) where
  newState : Str
  action : Action A
deriving DecidableEq

/-- The locals of `fsm.new`, and what has been printed. -/
structure Machine (A : Type) where
  state : Str
  stt : Key → Option (Entry A)
  str : Str
  silence : Bool
  out : List Str

/-- What `act.action()` comes to: an action of the table runs, there is none to call, or `exception`
returns `false`. -/
inductive Outcome (A : Type)
  | runs (action : A)
  | raises
  | exception
deriving DecidableEq

/-- `state .. SEPARATOR .. event` -/
def spell (p : Str × Str) : Str := p.1 ++ separator ++ p.2

namespace Machine

/-- `self:set` -/
def set (m : Machine A) (s : Str) : Machine A := { m with state := s }

/-- `self:get` -/
def get (m : Machine A) : Str := m.state

/-- `self:silent` -/
def silent (m : Machine A) : Machine A := { m with silence := true }

/-- `print` -/
def print (m : Machine A) (s : Str) : Machine A := { m with out := m.out ++ [s] }

/-- `exception`, which returns `false`. -/
def exception (m : Machine A) : Machine A :=
  if m.silence then m else m.print (bytes "FSM: unknown combination: " ++ m.str)

/-- `act.action()` -/
def call (m : Machine A) : Action A → Outcome A × Machine A
  | .given (some action) => (.runs action, m)
  | .given none => (.raises, m)
  | .exception => (.exception, m.exception)

/-- The table that `fire` looks into, and the `str` that it leaves. -/
def find (m : Machine A) (event : Str) : Option (Entry A) × Str :=
  match m.stt (.str (m.state ++ separator ++ event)) with
  | some act => (some act, m.str)
  | none =>
    match m.stt (.str (anystate ++ event)) with
    | some act => (some act, m.str)
    | none =>
      match m.stt (.str (m.state ++ anyevent)) with
      | some act => (some act, m.str)
      | none => (m.stt (.str unknown), m.state ++ separator ++ event)

/-- `self:fire`; `none` where there is no entry to look at. -/
def fire (m : Machine A) (event : Str) : Option (Outcome A × Machine A) :=
  let (act, str) := m.find event
  act.map fun act => { m with str, state := act.newState }.call act.action

/-- `self:add`, with what it returns. -/
def add (m : Machine A) (t : List (Row A)) : Nat × Machine A :=
  (t.length, t.foldl (fun m v => { m with
    stt := update m.stt (.str (v.oldState ++ separator ++ v.event))
      (some ⟨v.newState, .given v.action⟩) }) m)

/-- A turn of the loop of `delete`. -/
def deleteRow (m : Machine A) (v : Str × Str) : Machine A :=
  if v.1 = any ∧ v.2 = any then
    let m := if m.silence then m else
      (m.print (bytes "FSM: you should not delete the exception handler")).print
        (bytes "FSM: but assign another exception action")
    { m with stt := update m.stt .exception (some ⟨m.state, .exception⟩) }
  else { m with stt := update m.stt (.str (v.1 ++ separator ++ v.2)) none }

/-- `self:delete`, with what it returns; only the first two items of a row are looked at. -/
def delete (m : Machine A) (t : List (Str × Str)) : Nat × Machine A :=
  (t.length, t.foldl deleteRow m)

/-- `fsm.new`; `none` where `t` has no first row. -/
def new (t : List (Row A)) : Option (Machine A) :=
  t.head?.map fun row =>
    let m : Machine A :=
      { state := row.oldState
        stt := update (fun _ => none) (.str unknown) (some ⟨row.oldState, .exception⟩)
        str := []
        silence := false
        out := [] }
    (m.add t).2

end Machine

/-! ## Spellings -/

/-- Only the handler is spelled `*.*`. -/
theorem spell_eq_unknown {p : Str × Str} : spell p = unknown ↔ p = (any, any) := by
  obtain ⟨s, e⟩ := p
  constructor
  · intro h
    have hlen := congrArg List.length h
    simp only [spell, separator, unknown, anystate, any, List.length_append, List.length_cons,
      List.length_nil] at hlen
    match s, e, hlen with
    | [], _, _ => cases h
    | [_], e, _ =>
      cases h
      rfl
    | [_, _], [], _ => cases h
    | [_, _], _ :: _, hlen => simp at hlen
    | _ :: _ :: _ :: _, _, hlen =>
      simp only [List.length_cons] at hlen
      omega
  · intro h
    cases h
    rfl

end SkynetHotfix.Fsm
