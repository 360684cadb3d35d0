import SkynetHotfix.Lib.Fuel
import SkynetHotfix.Lua.Metatable

/-!
# Operations that call metamethods

What the operations of Lua do to the heap where they come to a metamethod that is a function: that is
code of the service, which can write anything and raise (`Runtime.call`). Each of them is the raw
operation on the heap where it comes to none.
-/

namespace SkynetHotfix.Lua

/-- A run that may raise or not end; `Fuel.Result` with a value. -/
abbrev Result (α : Type) := Fuel.Result Unit α

/-- What runs the code: the order in which `next` meets the keys of a table, what a call does,
`v[k]` and `v[k] = w` for a `v` that is no table, the text of the address of a table, and the
`tostring` of functions, userdata and threads. -/
structure Runtime where
  order : Heap → Nat → List Value
  order_perm : ∀ h t, (order h t).Perm (h.table t).keys
  call : Value → List Value → Heap → Result (List Value × Heap)
  access : Value → Value → Heap → Result (Value × Heap)
  assign : Value → Value → Value → Heap → Result Heap
  address : Nat → String
  display : Value → Heap → Result (String × Heap)

namespace Runtime

/-- The metamethod for `t == u`: that of the first table that has one. -/
def eqMethod (h : Heap) (t u : Nat) : Value :=
  if h.metafield t "__eq" = .nil then h.metafield u "__eq" else h.metafield t "__eq"

/-- `v == w` -/
def eq (R : Runtime) (v w : Value) (h : Heap) : Result (Bool × Heap) :=
  match v, w with
  | .table t, .table u =>
    if t = u then .ok (true, h)
    else if eqMethod h t u = .nil then .ok (false, h)
    else do
      let (values, h) ← R.call (eqMethod h t u) [v, w] h
      .ok ((values.headD .nil).truthy, h)
  | _, _ => .ok (decide (v = w), h)

/-- `t[k]`, over at most `hops` tables. -/
def index (R : Runtime) (hops t : Nat) (k : Value) (h : Heap) : Result (Value × Heap) :=
  if h.get t k ≠ .nil then .ok (h.get t k, h)
  else
    match hops with
    | 0 => .error (some ())
    | hops + 1 =>
      match h.metafield t "__index" with
      | .nil => .ok (.nil, h)
      | .table p => R.index hops p k h
      | .func f => do
        let (values, h) ← R.call (.func f) [.table t, k] h
        .ok (values.headD .nil, h)
      | v => R.access v k h

/-- `t[k] = v`, over at most `hops` tables. -/
def newindex (R : Runtime) (hops t : Nat) (k v : Value) (h : Heap) : Result Heap :=
  if h.get t k ≠ .nil then .ok (h.set t k v)
  else
    match hops with
    | 0 => .error (some ())
    | hops + 1 =>
      match h.metafield t "__newindex" with
      | .nil => .ok (h.set t k v)
      | .table p => R.newindex hops p k v h
      | .func f => do
        let (_, h) ← R.call (.func f) [.table t, k, v] h
        .ok h
      | w => R.assign w k v h

/-- A loop of at most `turns` turns over what an iterator gives. -/
def iterate {S : Type} (R : Runtime) (heap : S → Heap) (put : S → Heap → S)
    (body : Value → Value → S → Result S) : Nat → Value → Value → Value → S → Result S
  | 0, _, _, _, _ => .error none
  | turns + 1, f, s, control, st => do
    let (values, h) ← R.call f [s, control] (heap st)
    let st := put st h
    match values.headD .nil with
    | .nil => .ok st
    | k => do
      let st ← body k (values.getD 1 .nil) st
      R.iterate heap put body turns f s k st

/-- `for k, v in pairs(t) do body end`, in a state with a heap: a loop over what `__pairs` returns,
or over the fields. Those that are gone when `next` comes to them are not met. -/
def forPairs {S : Type} (R : Runtime) (heap : S → Heap) (put : S → Heap → S) (turns t : Nat)
    (body : Value → Value → S → Result S) (st : S) : Result S :=
  match (heap st).metafield t "__pairs" with
  | .nil => (R.order (heap st) t).foldlM (fun st k =>
      if (heap st).get t k = .nil then .ok st else body k ((heap st).get t k) st) st
  | f => do
    let (values, h) ← R.call f [.table t] (heap st)
    R.iterate heap put body turns (values.headD .nil) (values.getD 1 .nil) (values.getD 2 .nil)
      (put st h)

/-- `luaL_tolstring`, which is `tostring` and the `%s` of `string.format`. -/
def tolstring (R : Runtime) (v : Value) (h : Heap) : Result (String × Heap) :=
  match v with
  | .nil => .ok ("nil", h)
  | .bool b => .ok (toString b, h)
  | .num n => .ok (toString n, h)
  | .str s => .ok (s, h)
  | .table t =>
    match h.metafield t "__tostring" with
    | .nil =>
      let kind :=
        match h.metafield t "__name" with
        | .str name => name
        | _ => "table"
      .ok (kind ++ ": " ++ R.address t, h)
    | f => do
      let (values, h) ← R.call f [v] h
      match values.headD .nil with
      | .str s => .ok (s, h)
      | .num n => .ok (toString n, h)
      | _ => .error (some ())
  | v => R.display v h

/-- Functions that do nothing, and values without metatables but for tables. -/
def still : Runtime where
  order h t := (h.table t).keys
  order_perm _ _ := .refl _
  call v _ h :=
    match v with
    | .func _ => .ok ([], h)
    | _ => .error (some ())
  access _ _ _ := .error (some ())
  assign _ _ _ _ := .error (some ())
  address t := "0x" ++ toString t
  display v h :=
    match v with
    | .func f => .ok ("function: 0x" ++ toString f, h)
    | .thread f => .ok ("thread: 0x" ++ toString f, h)
    | .userdata u => .ok ("userdata: 0x" ++ toString u, h)
    | _ => .error (some ())

/-- From a control value on, the iterator `f` gives pairs and comes to an end, and writes nothing. -/
inductive Gives (R : Runtime) (h : Heap) (f s : Value) : Value → List (Value × Value) → Prop
  | stop {control : Value} {values : List Value} :
      R.call f [s, control] h = .ok (values, h) → values.headD .nil = .nil →
      Gives R h f s control []
  | next {control : Value} {values : List Value} {l : List (Value × Value)} :
      R.call f [s, control] h = .ok (values, h) → values.headD .nil ≠ .nil →
      Gives R h f s (values.headD .nil) l →
      Gives R h f s control ((values.headD .nil, values.getD 1 .nil) :: l)

/-- `pairs(t)` gives the pairs `l`, without a write: the fields, or what `__pairs` has for them. -/
def Lists (R : Runtime) (h : Heap) (t : Nat) (l : List (Value × Value)) : Prop :=
  (h.metafield t "__pairs" = .nil ∧ l = (R.order h t).map fun k => (k, h.get t k)) ∨
  (h.metafield t "__pairs" ≠ .nil ∧ ∃ values,
    R.call (h.metafield t "__pairs") [.table t] h = .ok (values, h) ∧
    R.Gives h (values.headD .nil) (values.getD 1 .nil) (values.getD 2 .nil) l)

/-- The turns of a loop that writes nothing. -/
inductive Turns {S : Type} (heap : S → Heap) (h : Heap) (body : Value → Value → S → Result S) :
    List (Value × Value) → S → S → Prop
  | nil (st : S) : Turns heap h body [] st st
  | cons {k v : Value} {l : List (Value × Value)} {st st₁ st' : S} :
      body k v st = .ok st₁ → heap st₁ = h → Turns heap h body l st₁ st' →
      Turns heap h body ((k, v) :: l) st st'

variable {R : Runtime} {h : Heap} {k : Value} {hops t p : Nat}

/-- Where no function is come to, `t[k]` is the field at the end of the chain. -/
theorem index_of_walk (hw : h.walk "__index" hops t k = some p) :
    R.index hops t k h = .ok (h.get p k, h) := by
  induction hops generalizing t with
  | zero =>
    rw [Heap.walk] at hw
    split at hw <;> rename_i hk <;> cases hw
    rw [index, if_pos hk]
  | succ hops ih =>
    rw [Heap.walk_succ] at hw
    rw [index]
    split at hw <;> rename_i hk
    · cases hw
      rw [if_pos hk]
    · rw [if_neg hk]
      have hnil : h.get t k = .nil := not_not.mp hk
      split at hw
      · rename_i e
        cases hw
        simp only [e, hnil]
      · rename_i q e
        simp only [e]
        exact ih hw
      · cases hw

/-- And `t[k] = v` is written there. -/
theorem newindex_of_walk (hw : h.walk "__newindex" hops t k = some p) (v : Value) :
    R.newindex hops t k v h = .ok (h.set p k v) := by
  induction hops generalizing t with
  | zero =>
    rw [Heap.walk] at hw
    split at hw <;> rename_i hk <;> cases hw
    rw [newindex, if_pos hk]
  | succ hops ih =>
    rw [Heap.walk_succ] at hw
    rw [newindex]
    split at hw <;> rename_i hk
    · cases hw
      rw [if_pos hk]
    · rw [if_neg hk]
      split at hw
      · rename_i e
        cases hw
        simp only [e]
      · rename_i q e
        simp only [e]
        exact ih hw
      · cases hw

section

variable {S : Type} {heap : S → Heap} {put : S → Heap → S} {body : Value → Value → S → Result S}
  {l : List (Value × Value)} {st st' : S} {turns : Nat}

theorem iterate_of_gives (hput : ∀ st, heap st = h → put st h = st) {f s control : Value}
    (hg : R.Gives h f s control l) (ht : Turns heap h body l st st') (hst : heap st = h)
    (hturns : l.length < turns) : R.iterate heap put body turns f s control st = .ok st' := by
  induction hg generalizing st turns with
  | stop hcall hnil =>
    obtain ⟨turns, rfl⟩ := Nat.exists_eq_add_of_lt hturns
    cases ht
    rw [List.length_nil, Nat.zero_add, iterate, hst, hcall, Fuel.ok_bind]
    dsimp only
    rw [hnil, hput _ hst]
  | @next _ _ l hcall hne _ ih =>
    obtain ⟨turns, rfl⟩ := Nat.exists_eq_add_of_lt hturns
    cases ht with
    | cons hbody hst₁ ht =>
      have hlt : l.length < l.length + 1 + turns := by omega
      have hrest := ih ht hst₁ hlt
      rw [List.length_cons, iterate, hst, hcall, Fuel.ok_bind]
      dsimp only
      rw [hput st hst]
      split
      · rename_i e
        exact absurd e hne
      · rw [hbody, Fuel.ok_bind]
        exact hrest

/-- `next` goes through the fields that are there. -/
theorem foldlM_of_turns {keys : List Value} (hkeys : ∀ k ∈ keys, h.get t k ≠ .nil)
    (ht : Turns heap h body (keys.map fun k => (k, h.get t k)) st st') (hst : heap st = h) :
    keys.foldlM (fun st k =>
      if (heap st).get t k = .nil then .ok st else body k ((heap st).get t k) st) st = .ok st' := by
  induction keys generalizing st with
  | nil =>
    cases ht
    rfl
  | cons k keys ih =>
    cases ht with
    | cons hbody hst₁ ht =>
      rw [List.foldlM_cons, hst, if_neg (hkeys k List.mem_cons_self), hbody]
      exact ih (fun k' hk => hkeys k' (List.mem_cons_of_mem _ hk)) ht hst₁

/-- A loop over what `pairs` gives, if it writes nothing. -/
theorem forPairs_of_lists (hput : ∀ st, heap st = h → put st h = st) (hl : R.Lists h t l)
    (ht : Turns heap h body l st st') (hst : heap st = h) (hturns : l.length < turns) :
    R.forPairs heap put turns t body st = .ok st' := by
  rw [forPairs, hst]
  rcases hl with ⟨hnil, rfl⟩ | ⟨hne, values, hcall, hg⟩
  · rw [hnil]
    exact foldlM_of_turns (fun k hk => Table.mem_keys.mp ((R.order_perm h t).mem_iff.mp hk)) ht hst
  · split
    · rename_i e
      exact absurd e hne
    · rw [hcall, Fuel.ok_bind]
      dsimp only
      rw [hput st hst]
      exact iterate_of_gives hput hg ht hst hturns

end

/-- The text of a value without a metatable, with functions that do nothing. -/
def stillText : Value → String
  | .nil => "nil"
  | .bool b => toString b
  | .num n => toString n
  | .str s => s
  | .table t => "table" ++ ": " ++ ("0x" ++ toString t)
  | .func f => "function: 0x" ++ toString f
  | .userdata u => "userdata: 0x" ++ toString u
  | .thread t => "thread: 0x" ++ toString t

theorem tolstring_still {v : Value} (hv : ∀ t, v = .table t → h.metatable t = none) :
    still.tolstring v h = .ok (stillText v, h) := by
  cases v with
  | table t =>
    simp only [tolstring, Heap.metafield, hv t rfl]
    rfl
  | _ => rfl

theorem lists_still (ht : h.metatable t = none) :
    still.Lists h t ((h.table t).keys.map fun k => (k, h.get t k)) :=
  .inl ⟨by rw [Heap.metafield, ht], rfl⟩

end Runtime

end SkynetHotfix.Lua
