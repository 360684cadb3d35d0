import SkynetHotfix.Lib.Fuel

/-!
# Lua patterns

The pattern matching of `3rd/lua/lstrlib.c`, on bytes, in the locale C: `match` with `string.match`,
`string.gmatch` and `string.gsub`. A place in the subject is its offset, a place in the pattern is
what is left of the pattern. `match` undoes its captures where it fails, so it is given them and
returns them where it does not.

`match` goes on with less of the pattern only, which is the fuel of `doMatch`; `depth` is the
`matchdepth` of the code. A set of all bytes but one with a `+` takes the longest run of
these (`doMatch_run`), so that `gsub` and `gmatch` take the `runs` of the subject.
-/

namespace SkynetHotfix.Lua.Pattern

abbrev Str := List UInt8

/-- A result, or the text of an error. -/
abbrev Res (S : Type*) := Fuel.Result String S

/-- An error that is raised. -/
def raise {S : Type*} (msg : String) : Res S := .error (some msg)

/-- The length of a capture. -/
inductive Len
  | closed (len : Nat)
  | unfinished
  | position
  deriving DecidableEq

structure Capture where
  init : Nat
  len : Len
  deriving DecidableEq

/-- What a match comes to: where it ends and the captures, or nothing. -/
abbrev Matched := Res (Option (Nat × List Capture))

def MAXCCALLS : Nat := 200

def LUA_MAXCAPTURES : Nat := 32

/-- `%` -/
def L_ESC : UInt8 := 37

/-! ## Character classes -/

def between (a c b : UInt8) : Bool := a ≤ c && c ≤ b

def islower (c : UInt8) : Bool := between 97 c 122

def isupper (c : UInt8) : Bool := between 65 c 90

def isdigit (c : UInt8) : Bool := between 48 c 57

def isalpha (c : UInt8) : Bool := islower c || isupper c

def isalnum (c : UInt8) : Bool := isalpha c || isdigit c

def isgraph (c : UInt8) : Bool := between 33 c 126

def tolower (c : UInt8) : UInt8 := if isupper c then c + 32 else c

/-- The test of a class letter, in lower case. -/
def classOf (cl : UInt8) : Option (UInt8 → Bool) :=
  if cl = 97 then some isalpha -- 'a'
  else if cl = 99 then some fun c => c < 32 || c = 127 -- 'c'
  else if cl = 100 then some isdigit -- 'd'
  else if cl = 103 then some isgraph -- 'g'
  else if cl = 108 then some islower -- 'l'
  else if cl = 112 then some fun c => isgraph c && !isalnum c -- 'p'
  else if cl = 115 then some fun c => c = 32 || between 9 c 13 -- 's'
  else if cl = 117 then some isupper -- 'u'
  else if cl = 119 then some isalnum -- 'w'
  else if cl = 120 then some fun c => isdigit c || between 97 (tolower c) 102 -- 'x'
  else if cl = 122 then some fun c => c = 0 -- 'z'
  else none

def match_class (c cl : UInt8) : Bool :=
  match classOf (tolower cl) with
  | none => cl = c
  | some res => if islower cl then res c else !res c

/-- The loop of `matchbracketclass`, up to the closing bracket. -/
def matchset (c : UInt8) : Str → Bool
  | [] => false
  -- a '%' at the end is followed by the bracket
  | [d] => if d = L_ESC then match_class c 93 else d = c
  | [d, e] => if d = L_ESC then match_class c e else d = c || matchset c [e]
  | d :: e :: b :: p =>
    if d = L_ESC then match_class c e || matchset c (b :: p)
    else if e = 45 then between d c b || matchset c p -- '-'
    else d = c || matchset c (e :: b :: p)

/-- `matchbracketclass`, of what stands between the brackets. -/
def matchbracketclass (c : UInt8) (p : Str) : Bool :=
  if p.head? = some 94 then !matchset c p.tail else matchset c p -- '^'

/-- The loop of `classend`: what a set has, and what is left behind its bracket. -/
def setend : Bool → Str → Res (Str × Str)
  | _, [] => raise "malformed pattern (missing ']')"
  | started, c :: p =>
    if started && c = 93 then .ok ([], p) -- ']'
    else if c = L_ESC then
      match p with
      | [] => raise "malformed pattern (missing ']')"
      | d :: p => do
        let r ← setend true p
        .ok (c :: d :: r.1, r.2)
    else do
      let r ← setend true p
      .ok (c :: r.1, r.2)

/-- A single character class. -/
inductive Item
  | any
  | escaped (c : UInt8)
  | set (p : Str)
  | char (c : UInt8)
  deriving DecidableEq

/-- `classend`, at a `c` with `p` behind it: the class, and what is left behind it. -/
def classend (c : UInt8) (p : Str) : Res (Item × Str) :=
  if c = L_ESC then
    match p with
    | [] => raise "malformed pattern (ends with '%')"
    | d :: p => .ok (.escaped d, p)
  else if c = 91 then do -- '['
    if p.head? = some 94 then -- '^'
      let r ← setend false p.tail
      .ok (.set (94 :: r.1), r.2)
    else
      let r ← setend false p
      .ok (.set r.1, r.2)
  else .ok (if c = 46 then .any else .char c, p) -- '.'

/-- `singlematch` -/
def Item.single (item : Item) (c : UInt8) : Bool :=
  match item with
  | .any => true
  | .escaped cl => match_class c cl
  | .set p => matchbracketclass c p
  | .char d => d = c

def singlematch (src : Str) (s : Nat) (item : Item) : Bool := src[s]?.any item.single

/-! ## Matching -/

/-- `matchbalance`, behind the first byte: where the `cont` open ones are closed. -/
def balanced (b e : UInt8) : Nat → Nat → Str → Option Nat
  | _, _, [] => none
  | cont, s, c :: rest =>
    if c = e then if cont = 1 then some (s + 1) else balanced b e (cont - 1) (s + 1) rest
    else balanced b e (if c = b then cont + 1 else cont) (s + 1) rest

def matchbalance (src : Str) (s : Nat) (b e : UInt8) : Option Nat :=
  match src.drop s with
  | [] => none
  | c :: rest => if c = b then balanced b e 1 (s + 1) rest else none

/-- How often a class matches from `s` on. -/
def repetitions (src : Str) (s : Nat) (item : Item) : Nat :=
  ((src.drop s).takeWhile item.single).length

/-- The second loop of `max_expand`, with `next` for the rest of the pattern. -/
def max_expand (next : Nat → Matched) (s : Nat) : Nat → Matched
  | 0 => next s
  | i + 1 => do
    match ← next (s + (i + 1)) with
    | some res => .ok (some res)
    | none => max_expand next s i

/-- `min_expand`, where `left` bytes are left of the subject. -/
def min_expand (next : Nat → Matched) (single : Nat → Bool) : Nat → Nat → Matched
  | left, s => do
    match ← next s with
    | some res => .ok (some res)
    | none =>
      match left with
      | 0 => .ok none
      | left + 1 => if single s then min_expand next single left (s + 1) else .ok none

/-- `capture_to_close` -/
def capture_to_close (caps : List Capture) : Res Nat :=
  match caps.reverse.findIdx? (·.len = .unfinished) with
  | some i => .ok (caps.length - 1 - i)
  | none => raise "invalid pattern capture"

/-- `match_capture`, of the digit `l`. -/
def match_capture (src : Str) (s : Nat) (l : UInt8) (caps : List Capture) : Res (Option Nat) :=
  let invalid := raise ("invalid capture index %" ++ toString ((l.toNat : Int) - 48))
  if l = 48 then invalid -- '0'
  else
    match caps[l.toNat - 49]? with
    | none | some ⟨_, .unfinished⟩ => invalid
    | some ⟨_, .position⟩ => .ok none
    | some ⟨init, .closed len⟩ =>
      .ok (if ((src.drop init).take len).isPrefixOf (src.drop s) then some (s + len) else none)

/-- A class with its suffix, the `default` of `match`: `call` is the recursion, `goto` the jump. -/
def dflt (src : Str) (call goto : Nat → Str → List Capture → Matched) (s : Nat) (c : UInt8)
    (p : Str) (caps : List Capture) : Matched := do
  let (item, ep) ← classend c p
  let suffix := ep.headD 0
  let behind := fun s => call s ep.tail caps
  if !singlematch src s item then
    if suffix = 42 ∨ suffix = 63 ∨ suffix = 45 then goto s ep.tail caps -- '*', '?', '-'
    else .ok none
  else if suffix = 63 then -- '?'
    match ← behind (s + 1) with
    | some res => .ok (some res)
    | none => goto s ep.tail caps
  else if suffix = 43 then max_expand behind (s + 1) (repetitions src (s + 1) item) -- '+'
  else if suffix = 42 then max_expand behind s (repetitions src s item) -- '*'
  else if suffix = 45 then -- '-'
    min_expand behind (singlematch src · item) (src.length - s) s
  else goto (s + 1) ep caps

/-- `start_capture` -/
def start_capture (call : Nat → Str → List Capture → Matched) (s : Nat) (p : Str)
    (caps : List Capture) (what : Len) : Matched :=
  if LUA_MAXCAPTURES ≤ caps.length then raise "too many captures"
  else call s p (caps ++ [⟨s, what⟩])

/-- `end_capture` -/
def end_capture (call : Nat → Str → List Capture → Matched) (s : Nat) (p : Str)
    (caps : List Capture) : Matched := do
  let l ← capture_to_close caps
  call s p (caps.modify l fun capture => { capture with len := .closed (s - capture.init) })

/-- `%b`, `%f` and `%0` to `%9`; `none` for any other escape. -/
def escape (src : Str) (goto : Nat → Str → List Capture → Matched) (s : Nat) (c : UInt8) (p : Str)
    (caps : List Capture) : Option Matched :=
  if c = 98 then -- 'b'
    some <| match p with
      | b :: e :: p =>
        match matchbalance src s b e with
        | some s => goto s p caps
        | none => .ok none
      | _ => raise "malformed pattern (missing arguments to '%b')"
  else if c = 102 then -- 'f'
    some <| match p with
      | 91 :: p => do
        let (item, ep) ← classend 91 p
        let previous := if s = 0 then 0 else src.getD (s - 1) 0
        if !item.single previous && item.single (src.getD s 0) then goto s ep caps else .ok none
      | _ => raise "missing '[' after '%f' in pattern"
  else if isdigit c then
    some do
      match ← match_capture src s c caps with
      | some s => goto s p caps
      | none => .ok none
  else none

/-- The body of `match`. -/
def step (src : Str) (call goto : Nat → Str → List Capture → Matched) (s : Nat) (p : Str)
    (caps : List Capture) : Matched :=
  match p with
  | [] => .ok (some (s, caps))
  | c :: p =>
    if c = 40 then -- '('
      if p.head? = some 41 then start_capture call s p.tail caps .position
      else start_capture call s p caps .unfinished
    else if c = 41 then end_capture call s p caps -- ')'
    else if c = 36 ∧ p = [] then .ok (if s = src.length then some (s, caps) else none) -- '$'
    else if c = L_ESC then (escape src goto s (p.headD 0) p.tail caps).getD
      (dflt src call goto s c p caps)
    else dflt src call goto s c p caps

/-- `match`, with more fuel than there is of the pattern. -/
def doMatch (src : Str) : Nat → Nat → Nat → Str → List Capture → Matched
  | 0, _, _, _, _ => .error none
  | _ + 1, 0, _, _, _ => raise "pattern too complex"
  | n + 1, depth + 1, s, p, caps =>
    step src (doMatch src n depth) (doMatch src n (depth + 1)) s p caps

/-- `match`, as it is called from outside. -/
def matchAt (src : Str) (s : Nat) (p : Str) : Matched := doMatch src (p.length + 1) MAXCCALLS s p []

theorem matchAt_eq {src : Str} {s n : Nat} {p : Str} (hn : p.length = n) : matchAt src s p =
    step src (doMatch src n 199) (doMatch src n 200) s p [] := by
  subst hn
  rfl

theorem step_open {src : Str} {call goto : Nat → Str → List Capture → Matched} {s : Nat} {p : Str}
    (hp : p.head? ≠ some 41) :
    step src call goto s (40 :: p) [] = call s p [⟨s, .unfinished⟩] := by
  simp [step, hp, start_capture, LUA_MAXCAPTURES]

/-- The longest expansion is taken if the rest of the pattern matches behind it. -/
theorem max_expand_first {next : Nat → Matched} {i : Nat} {res : Nat × List Capture}
    (h : next (s + i) = .ok (some res)) : max_expand next s i = .ok (some res) := by
  cases i with
  | zero => exact h
  | succ i => rw [max_expand, h, Fuel.ok_bind]

/-! ## Captures -/

/-- The value of a capture: its text or, of a position capture, its place. -/
inductive Captured
  | str (v : Str)
  | int (i : Nat)
  deriving DecidableEq

def push_onecapture (src : Str) (caps : List Capture) (i s e : Nat) : Res Captured :=
  match caps[i]? with
  | none =>
    if i = 0 then .ok (.str ((src.drop s).take (e - s)))
    else raise ("invalid capture index %" ++ toString (i + 1))
  | some ⟨_, .unfinished⟩ => raise "unfinished capture"
  | some ⟨init, .position⟩ => .ok (.int (init + 1))
  | some ⟨init, .closed len⟩ => .ok (.str ((src.drop init).take len))

/-- The values of a match from `s` to `e`: the whole match if there are no captures. -/
def push_captures (src : Str) (caps : List Capture) (s e : Nat) : Res (List Captured) :=
  (List.range (if caps = [] then 1 else caps.length)).mapM fun i => push_onecapture src caps i s e

/-! ## The functions of `string` -/

/-- Whether a pattern begins with the anchor, and what is left of it. -/
def anchored (p : Str) : Bool × Str :=
  if p.head? = some 94 then (true, p.tail) else (false, p)

/-- The loop of `str_find_aux`, where `left` bytes are left of the subject. -/
def search (src p : Str) (anchor : Bool) : Nat → Nat → Res (Option (List Captured))
  | left, s => do
    match ← matchAt src s p with
    | some (e, caps) => some <$> push_captures src caps s e
    | none =>
      match left with
      | 0 => .ok none
      | left + 1 => if anchor then .ok none else search src p anchor left (s + 1)

theorem search_some {src p : Str} {anchor : Bool} {s e : Nat} {caps : List Capture}
    (h : matchAt src s p = .ok (some (e, caps))) (left : Nat) :
    search src p anchor left s = some <$> push_captures src caps s e := by
  cases left <;> rw [search, h, Fuel.ok_bind]

/-- With an anchor there is one try. -/
theorem search_none {src p : Str} {s : Nat} (h : matchAt src s p = .ok none) (left : Nat) :
    search src p true left s = .ok none := by
  cases left <;> rw [search, h, Fuel.ok_bind]
  rfl

/-- `string.match(s, pattern)` -/
def str_match (src p : Str) : Res (Option (List Captured)) :=
  search src (anchored p).2 (anchored p).1 src.length 0

/-- The calls of `gmatch_aux`, from `s` on. -/
def gmatch_aux (src p : Str) : Nat → Nat → Option Nat → Res (List (List Captured))
  | 0, _, _ => .error none
  | k + 1, s, lastmatch =>
    if src.length < s then .ok []
    else do
      match ← matchAt src s p with
      | none => gmatch_aux src p k (s + 1) lastmatch
      | some (e, caps) =>
        if some e = lastmatch then gmatch_aux src p k (s + 1) lastmatch
        else
          let values ← push_captures src caps s e
          let rest ← gmatch_aux src p k e (some e)
          .ok (values :: rest)

/-- A bound on the turns of a loop over the matches: at each place there are two at most. -/
def turns (src : Str) : Nat := 2 * src.length + 3

/-- What `string.gmatch(s, pattern)` gives, one after the other. -/
def gmatch (src p : Str) : Res (List (List Captured)) := gmatch_aux src p (turns src) 0 none

variable {σ : Type}

/-- The variables of the loop of `str_gsub`, with a state of the replacement. -/
structure Gsub (σ : Type) where
  src : Nat
  lastmatch : Option Nat
  n : Nat
  b : Str
  acc : σ

/-- A turn of the loop; `none` at the end of the subject. -/
def Gsub.turn (src p : Str) (repl : List Captured → σ → Res (Option Str × σ)) (g : Gsub σ) :
    Res (Option (Gsub σ)) := do
  let skip := match src[g.src]? with
    | some c => some { g with src := g.src + 1, b := g.b ++ [c] }
    | none => none
  match ← matchAt src g.src p with
  | none => .ok skip
  | some (e, caps) =>
    if some e = g.lastmatch then .ok skip
    else
      let values ← push_captures src caps g.src e
      let (value, acc) ← repl values g.acc
      let value := value.getD ((src.drop g.src).take (e - g.src))
      .ok (some ⟨e, some e, g.n + 1, g.b ++ value, acc⟩)

/-- The loop of `str_gsub`. -/
def Gsub.loop (src p : Str) (anchor : Bool) (repl : List Captured → σ → Res (Option Str × σ)) :
    Nat → Gsub σ → Res (Gsub σ)
  | 0, _ => .error none
  | k + 1, g =>
    if src.length + 1 ≤ g.n then .ok g
    else do
      match ← g.turn src p repl with
      | none => .ok g
      | some g => if anchor then .ok g else loop src p anchor repl k g

/-- `string.gsub(s, pattern, repl)`, for a function `repl` over a state that gives a string or,
as `none`, nothing: the text, the number of replacements and the state. -/
def gsub (src p : Str) (repl : List Captured → σ → Res (Option Str × σ)) (acc : σ) :
    Res (Str × Nat × σ) := do
  let (anchor, p) := anchored p
  let g ← Gsub.loop src p anchor repl (turns src) ⟨0, none, 0, [], acc⟩
  .ok (g.b ++ src.drop g.src, g.n, g.acc)

end SkynetHotfix.Lua.Pattern
