import SkynetHotfix.Lua.Runtime

/-!
# The dump of a table

`l_dump` of `common/base/luaext.lua`, which the preloaded `tostring` prints
tables by. It goes through a table by `pairs`, and has the keys and what is no
table printed by the `tostring` from before (`Runtime.tolstring`): code of the
service runs where these come to `__pairs` or `__tostring`. Functions are
skipped, and so is what stands under the keys `class` and `__index`; so all
tables of functions print alike (`dump_functions`).
-/

namespace SkynetHotfix.Luaext

open Lua

/-- `string.gsub(s, pattern, repl)` for a pattern of plain characters; `skip` characters belong to
a match that has been replaced. -/
def gsub (pattern repl : List Char) : Nat → List Char → List Char
  | _, [] => []
  | skip + 1, _ :: cs => gsub pattern repl skip cs
  | 0, c :: cs =>
    if pattern.isPrefixOf (c :: cs) then repl ++ gsub pattern repl (pattern.length - 1) cs
    else c :: gsub pattern repl 0 cs

/-- The characters of `('%q'):format(s)` between the quotes. -/
def addquoted : List Char → List Char
  | [] => []
  | c :: cs =>
    (if c = '"' ∨ c = '\\' ∨ c = '\n' then ['\\', c]
    else if c.toNat < 32 ∨ c.toNat = 127 then
      let digits := (toString c.toNat).toList
      if (cs.head?.map Char.isDigit).getD false then
        '\\' :: (List.replicate (3 - digits.length) '0' ++ digits)
      else '\\' :: digits
    else [c]) ++ addquoted cs

/-- `('%q'):format(v):gsub('\\\10','\\n'):gsub('\\r\\n', '\\n')` -/
def quote (s : String) : String :=
  let quoted := ['"'] ++ addquoted s.toList ++ ['"']
  let newlines := gsub ['\\', '\n'] ['\\', 'n'] 0 quoted
  String.ofList (gsub ['\\', 'r', '\\', 'n'] ['\\', 'n'] 0 newlines)

/-- `s:rep(n)` -/
def rep (s : String) (n : Nat) : String := String.join (List.replicate n s)

/-- `getkey` -/
def getkey (R : Runtime) (k : Value) (h : Heap) : Lua.Result (String × Heap) :=
  match k with
  | .num n => .ok ("[" ++ toString n ++ "]", h)
  | .str s => .ok ("[\"" ++ s ++ "\"]", h)
  | k => do
    let (s, h) ← R.tolstring k h
    .ok ("[" ++ s ++ "]", h)

/-- `k ~= 'class' and k ~= '__index' and vtype ~= 'function'` -/
def printed (k v : Value) : Bool := k ≠ .str "class" ∧ k ≠ .str "__index" ∧ v.type ≠ .function

/-- The lines of a table: the keys `ks` with the texts `vs`. -/
def concatLines (lines : List (String × String)) : String :=
  let mxl := (lines.map fun line => line.1.utf8ByteSize).foldl max 0
  String.join (lines.map fun line =>
    line.1 ++ rep " " (mxl - line.1.utf8ByteSize) ++ " = " ++ line.2 ++ "\n")

/-- The text of a table with the lines `lines`, at the depth `lv`. -/
def block (lv : Nat) (lines : List (String × String)) : String :=
  "\x7b\n" ++ concatLines lines ++ rep "\t" (lv - 1) ++ "\x7d"

/-- The variables of a `dump_obj`: `ks` with `vs`, and `st`, with the path of each table that has
been dumped. -/
structure DumpState where
  heap : Heap
  lines : List (String × String)
  st : List (Nat × String)

/-- The text of a value that is no table. -/
def valueText (R : Runtime) (v : Value) (h : Heap) : Lua.Result (String × Heap) :=
  match v with
  | .str x => .ok (quote x, h)
  | v => R.tolstring v h

/-- The body of the loop of `dump_obj`, for a table that is known as `key`. -/
def dumpField (R : Runtime) (rec : Nat → String → Nat → List (Nat × String) → Heap →
    Lua.Result (String × List (Nat × String) × Heap)) (key : String) (lv : Nat) (k v : Value)
    (d : DumpState) : Lua.Result DumpState :=
  if printed k v then
    match v with
    | .table t =>
      match d.st.lookup t with
      | some path => do
        let (s, heap) ← getkey R k d.heap
        .ok ⟨heap, d.lines ++ [(rep "\t" lv ++ s, "[" ++ path ++ "]")], d.st⟩
      | none => do
        let (s, heap) ← R.tolstring k d.heap
        let path := key ++ "." ++ s
        let (text, st, heap) ← rec t path (lv + 1) ((t, path) :: d.st) heap
        let (s, heap) ← getkey R k heap
        .ok ⟨heap, d.lines ++ [(rep "\t" lv ++ s, text)], st⟩
    | v => do
      let (text, heap) ← valueText R v d.heap
      let (s, heap) ← getkey R k heap
      .ok ⟨heap, d.lines ++ [(rep "\t" lv ++ s, text)], d.st⟩
  else .ok d

/-- `dump_obj` of a table, to a depth of `fuel` tables; the loops over what `__pairs` returns have
at most `turns` turns. -/
def dumpObj (R : Runtime) (turns : Nat) : Nat → Nat → String → Nat → List (Nat × String) → Heap →
    Lua.Result (String × List (Nat × String) × Heap)
  | 0, _, _, _, _, _ => .error none
  | fuel + 1, obj, key, lv, st, h => do
    let d ← R.forPairs DumpState.heap (fun d heap => { d with heap }) turns obj
      (dumpField R (dumpObj R turns fuel) key lv) ⟨h, [], st⟩
    .ok (block lv d.lines, d.st, d.heap)

/-- `l_dump` of a table -/
def dump (R : Runtime) (turns fuel tab : Nat) (h : Heap) : Lua.Result (String × Heap) := do
  let (text, _, h) ← dumpObj R turns fuel tab "" 1 [(tab, ".")] h
  .ok (text, h)

/-- `tostring`, as `luaext` leaves it. -/
def tostring (R : Runtime) (turns fuel : Nat) (v : Value) (h : Heap) : Lua.Result (String × Heap) :=
  match v with
  | .table t => dump R turns fuel t h
  | v => R.tolstring v h

variable {R : Runtime} {h : Heap} {tab : Nat} {k v : Value} {d : DumpState}

/-- A field that is not printed leaves no line. -/
theorem dumpField_skip {rec : Nat → String → Nat → List (Nat × String) → Heap →
    Lua.Result (String × List (Nat × String) × Heap)} {key : String} {lv : Nat}
    (hk : printed k v = false) : dumpField R rec key lv k v d = .ok d := by
  simp [dumpField, hk]

/-- A table of functions prints the same text as any other. -/
theorem dump_functions (hp : h.metafield tab "__pairs" = .nil)
    (hf : ∀ k, h.get tab k ≠ .nil → (h.get tab k).type = .function) (turns fuel : Nat) :
    dump R turns (fuel + 1) tab h = .ok (block 1 [], h) := by
  have hmem : ∀ k ∈ R.order h tab, h.get tab k ≠ .nil := fun k hk =>
    Table.mem_keys.mp ((R.order_perm h tab).mem_iff.mp hk)
  have hturns : ∀ keys ⊆ R.order h tab, Runtime.Turns DumpState.heap h
      (dumpField R (dumpObj R turns fuel) "" 1) (keys.map fun k => (k, h.get tab k))
      ⟨h, [], [(tab, ".")]⟩ ⟨h, [], [(tab, ".")]⟩ := by
    intro keys
    induction keys with
    | nil => exact fun _ => .nil _
    | cons k ks ih =>
      intro hks
      have hk : printed k (h.get tab k) = false := by
        simp [printed, hf k (hmem k (hks List.mem_cons_self))]
      exact .cons (dumpField_skip hk) rfl (ih fun k' hk' => hks (List.mem_cons_of_mem _ hk'))
  have hloop := Runtime.foldlM_of_turns hmem (hturns _ (List.Subset.refl _)) rfl
  rw [dump, dumpObj, Runtime.forPairs, hp]
  dsimp only
  rw [hloop]
  rfl

end SkynetHotfix.Luaext
