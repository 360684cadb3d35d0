import Mathlib.Data.Finset.Lattice.Fold
import Mathlib.Data.Finset.Range
import SkynetHotfix.Lib.Meetings
import SkynetHotfix.Luaext.Dump

/-!
# What a dump shows

The text of `l_dump` is laid out from a tree, `Lines`: a line for each field
that is printed, and under the field of a table that is new the lines of that
table. `dumpObj_lines` reads the tree off the recursion: the walk never gets
to the end of its fuel, since each table that is dumped within another is one
of the tables of the heap that `st` does not hold yet. What the tree meets, in
the order of the walk, obeys `Meetings.Legal`, and `dumped` says what follows:
each table that is reached is expanded once, and shown by the path of its
first meeting elsewhere.

`Calm` is what this asks of the code that runs in between: `pairs` comes to the
end of each table, the keys and the other values have a text, and nothing is
written or raised. So it is where no table has a `__pairs` and no value a
`__tostring`. A `__pairs` that raises is passed on (`pairs_raises`).
-/

namespace SkynetHotfix.Luaext

open Lua Meetings Meeting

/-- The fields of a table that a dump prints. -/
inductive Lines
  | nil
  | value (k : Value) (s : String) (rest : Lines)
  | shown (k : Value) (t : Nat) (path : String) (rest : Lines)
  | table (k : Value) (t : Nat) (path : String) (inner rest : Lines)

section

variable (text : Value → String) (fields : Nat → List (Value × Value))

/-- The text of a key. -/
def keyText : Value → String
  | .num n => "[" ++ toString n ++ "]"
  | .str s => "[\"" ++ s ++ "\"]"
  | k => "[" ++ text k ++ "]"

/-- The text of a value that is no table. -/
def leaf : Value → String
  | .str x => quote x
  | v => text v

namespace Lines

/-- The tables that are met. -/
def met : Lines → List (Meeting Nat String)
  | nil => []
  | value _ _ rest => rest.met
  | shown _ t path rest => reference t path :: rest.met
  | table _ t path inner rest => expanded t path :: (inner.met ++ rest.met)

/-- The lines, each with its key and its value. -/
def layout (lv : Nat) : Lines → List (String × String)
  | nil => []
  | value k s rest => (rep "\t" lv ++ keyText text k, s) :: rest.layout lv
  | shown k _ path rest => (rep "\t" lv ++ keyText text k, "[" ++ path ++ "]") :: rest.layout lv
  | table k _ _ inner rest =>
    (rep "\t" lv ++ keyText text k, block (lv + 1) (inner.layout (lv + 1))) :: rest.layout lv

end Lines

/-- What a dump prints of what `pairs` gives. -/
def printedFields (obj : Nat) : List (Value × Value) :=
  (fields obj).filter fun e => printed e.1 e.2

/-- The lines are those of the fields of a table that is known as `key`. -/
inductive Lines.Of : String → List (Value × Value) → Lines → Prop
  | nil (key : String) : Of key [] .nil
  | value {key : String} {k v : Value} {l : List (Value × Value)} {rest : Lines}
      (hv : ∀ t, v ≠ .table t) (hrest : Of key l rest) :
      Of key ((k, v) :: l) (.value k (leaf text v) rest)
  | shown {t : Nat} {key : String} {k : Value} {l : List (Value × Value)} {rest : Lines}
      (path : String) (hrest : Of key l rest) :
      Of key ((k, .table t) :: l) (.shown k t path rest)
  | table {t : Nat} {key : String} {k : Value} {l : List (Value × Value)} {inner rest : Lines}
      (hinner : Of (key ++ "." ++ text k) (printedFields fields t) inner) (hrest : Of key l rest) :
      Of key ((k, .table t) :: l) (.table k t (key ++ "." ++ text k) inner rest)

/-- The tables that are reached through the values that a dump prints. -/
inductive Dumped (tab : Nat) : Nat → Prop
  | refl : Dumped tab tab
  | field {t t' : Nat} {k : Value} (ht : Dumped tab t) (he : (k, .table t') ∈ fields t)
      (hk : printed k (.table t')) : Dumped tab t'

/-- Nothing that a dump of `tab` calls writes or raises: `pairs` gives the fields of each table
that is reached, and `tostring` a text. -/
structure Calm (R : Runtime) (h : Heap) (tab : Nat) : Prop where
  lists : ∀ t, Dumped fields tab t → R.Lists h t (fields t)
  key : ∀ t k v, Dumped fields tab t → (k, v) ∈ fields t → printed k v →
    R.tolstring k h = .ok (text k, h)
  value : ∀ t k v, Dumped fields tab t → (k, v) ∈ fields t → printed k v →
    (∀ t', v ≠ .table t') → R.tolstring v h = .ok (text v, h)

variable {text fields} {R : Runtime} {h : Heap} {tab : Nat}

theorem getkey_of_text {k : Value} (hk : R.tolstring k h = .ok (text k, h)) :
    getkey R k h = .ok (keyText text k, h) := by
  cases k <;> simp only [getkey, keyText, hk, Fuel.ok_bind]

theorem valueText_of_text {v : Value} (hv : R.tolstring v h = .ok (text v, h)) :
    valueText R v h = .ok (leaf text v, h) := by
  cases v <;> first | rfl | exact hv

variable {rec : Nat → String → Nat → List (Nat × String) → Heap →
  Lua.Result (String × List (Nat × String) × Heap)} {key : String} {lv : Nat} {k v : Value}
  {lines : List (String × String)} {st : List (Nat × String)}

/-- A value that is no table has its text. -/
theorem dumpField_text (hk : printed k v) (hv : ∀ t, v ≠ .table t)
    (hkey : R.tolstring k h = .ok (text k, h)) (hval : R.tolstring v h = .ok (text v, h)) :
    dumpField R rec key lv k v ⟨h, lines, st⟩ =
      .ok ⟨h, lines ++ [(rep "\t" lv ++ keyText text k, leaf text v)], st⟩ := by
  have hline := valueText_of_text hval
  cases v with
  | table t => exact absurd rfl (hv t)
  | _ => simp only [dumpField, hk, if_true, hline, getkey_of_text hkey, Fuel.ok_bind]

/-- A table that is known is shown by its path. -/
theorem dumpField_shown {t : Nat} {path : String} (hk : printed k (.table t))
    (hkey : R.tolstring k h = .ok (text k, h)) (hst : st.lookup t = some path) :
    dumpField R rec key lv k (.table t) ⟨h, lines, st⟩ =
      .ok ⟨h, lines ++ [(rep "\t" lv ++ keyText text k, "[" ++ path ++ "]")], st⟩ := by
  simp only [dumpField, hk, if_true, hst, getkey_of_text hkey, Fuel.ok_bind]

/-- A table that is new is dumped under the path that leads to it. -/
theorem dumpField_table {t : Nat} {s : String} {st' : List (Nat × String)}
    (hk : printed k (.table t)) (hkey : R.tolstring k h = .ok (text k, h))
    (hst : st.lookup t = none)
    (hrec : rec t (key ++ "." ++ text k) (lv + 1) ((t, key ++ "." ++ text k) :: st) h =
      .ok (s, st', h)) :
    dumpField R rec key lv k (.table t) ⟨h, lines, st⟩ =
      .ok ⟨h, lines ++ [(rep "\t" lv ++ keyText text k, s)], st'⟩ := by
  simp only [dumpField, hk, if_true, hst, hkey, hrec, getkey_of_text hkey, Fuel.ok_bind]

variable {longest n : Nat}

/-- What a dump of a table with the path `key` does with enough turns and a fuel from `n` on: it
lays out lines of that table and meets tables by the rules. -/
def Laid (text : Value → String) (fields : Nat → List (Value × Value)) (h : Heap) (longest n obj : Nat)
    (key : String) (lv : Nat) (st : List (Nat × String))
    (r : Nat → Nat → Lua.Result (String × List (Nat × String) × Heap)) : Prop :=
  ∃ L : Lines, (∀ turns > longest, ∀ m ≥ n,
      r turns m = .ok (block lv (L.layout text lv), after st L.met, h)) ∧
    Lines.Of text fields key (printedFields fields obj) L ∧ Legal st L.met

/-- The loop of `dump_obj` lays out a line for each field that is printed. -/
theorem dumpField_turns
    {dumps : Nat → Nat → Nat → String → Nat → List (Nat × String) → Heap →
      Lua.Result (String × List (Nat × String) × Heap)}
    (hc : Calm text fields R h tab) (hfin : ∀ t, Dumped fields tab t → t < h.size)
    (hrec : ∀ t path st, Dumped fields tab t → new (List.range h.size) st < n →
      Laid text fields h longest n t path (lv + 1) st fun turns m =>
        dumps turns m t path (lv + 1) st h)
    (key : String) {obj : Nat} (hobj : Dumped fields tab obj) (l : List (Value × Value))
    (hl : l ⊆ fields obj)
    (lines : List (String × String)) (st : List (Nat × String))
    (hst : new (List.range h.size) st ≤ n) :
    ∃ L : Lines, (∀ turns > longest, ∀ m ≥ n,
        Runtime.Turns DumpState.heap h (dumpField R (dumps turns m) key lv) l
          ⟨h, lines, st⟩ ⟨h, lines ++ L.layout text lv, after st L.met⟩) ∧
      Lines.Of text fields key (l.filter fun e => printed e.1 e.2) L ∧ Legal st L.met := by
  induction l generalizing lines st with
  | nil =>
    refine ⟨.nil, fun turns _ m _ => ?_, .nil key, trivial⟩
    rw [Lines.layout, List.append_nil]
    exact .nil _
  | cons e l ih =>
    obtain ⟨k, v⟩ := e
    have hl' : l ⊆ fields obj := fun e he => hl (List.mem_cons_of_mem _ he)
    by_cases hk : printed k v
    · rw [List.filter_cons_of_pos (p := fun e : Value × Value => printed e.1 e.2) hk]
      have he := hl (List.mem_cons_self (a := (k, v)))
      have hkey := hc.key obj k v hobj he hk
      by_cases hv : ∃ t, v = .table t
      · obtain ⟨t, rfl⟩ := hv
        cases hlookup : st.lookup t with
        | some path =>
          -- a table that is known: nothing else is met
          obtain ⟨L, hf, hof, hlegal⟩ := ih hl' (lines ++ _) st hst
          refine ⟨.shown k t path L, fun turns hturns m hm => ?_, .shown path hof, mem_of_lookup hlookup,
            hlegal⟩
          refine .cons (dumpField_shown hk hkey hlookup) rfl ?_
          have hrest := hf turns hturns m hm
          rw [List.append_assoc] at hrest
          exact hrest
        | none =>
          -- a table that is new: what it holds is met first
          have ht : Dumped fields tab t := .field hobj he hk
          have hnew := new_of_lookup hlookup
          let path := key ++ "." ++ text k
          have hlt := new_lt path (List.mem_range.mpr (hfin t ht)) hnew
          obtain ⟨I, hr, hofI, hlegalI⟩ := hrec t path ((t, path) :: st) ht (by omega)
          have hle := new_after_le (List.range h.size) ((t, path) :: st) I.met
          obtain ⟨L, hf, hof, hlegal⟩ := ih hl' (lines ++ [(rep "\t" lv ++ keyText text k,
            block (lv + 1) (I.layout text (lv + 1)))]) (after ((t, path) :: st) I.met)
            (by omega)
          refine ⟨.table k t path I L, fun turns hturns m hm => ?_, .table hofI hof, hnew, ?_⟩
          · refine .cons (dumpField_table hk hkey hlookup (hr turns hturns m hm)) rfl ?_
            have hrest := hf turns hturns m hm
            rw [List.append_assoc, ← after_append] at hrest
            exact hrest
          · exact (legal_append I.met L.met _).mpr ⟨hlegalI, hlegal⟩
      · have hv : ∀ t, v ≠ .table t := fun t ht => hv ⟨t, ht⟩
        obtain ⟨L, hf, hof, hlegal⟩ := ih hl' (lines ++ _) st hst
        refine ⟨.value k _ L, fun turns hturns m hm => ?_, .value hv hof, hlegal⟩
        refine .cons (dumpField_text hk hv hkey (hc.value obj k v hobj he hk hv)) rfl ?_
        have hrest := hf turns hturns m hm
        rw [List.append_assoc] at hrest
        exact hrest
    · rw [List.filter_cons_of_neg (p := fun e : Value × Value => printed e.1 e.2) hk]
      obtain ⟨L, hf, hof⟩ := ih hl' lines st hst
      exact ⟨L, fun turns hturns m hm => .cons (dumpField_skip (by simpa using hk)) rfl (hf turns hturns m hm), hof⟩

/-- `dump_obj` lays out the lines of its table, if it has the turns for the fields and the fuel for
the tables that are new. -/
theorem dumpObj_lines (hc : Calm text fields R h tab)
    (hfin : ∀ t, Dumped fields tab t → t < h.size)
    (hlongest : ∀ t, Dumped fields tab t → (fields t).length ≤ longest) :
    ∀ n obj key lv st, Dumped fields tab obj → new (List.range h.size) st < n →
      Laid text fields h longest n obj key lv st fun turns m =>
        dumpObj R turns m obj key lv st h := by
  intro n
  induction n with
  | zero => intro obj key lv st _ hst; omega
  | succ n ih =>
    intro obj key lv st hobj hst
    obtain ⟨L, hf, hof, hlegal⟩ := dumpField_turns hc hfin
      (fun t path st ht hlt => ih t path (lv + 1) st ht hlt) key hobj (fields obj)
      (List.Subset.refl _) [] st (by omega)
    refine ⟨L, fun turns hturns m hm => ?_, hof, hlegal⟩
    obtain ⟨m, rfl⟩ : ∃ m', m = m' + 1 := ⟨m - 1, by omega⟩
    have hlength := hlongest obj hobj
    show dumpObj R turns (m + 1) obj key lv st h = _
    rw [dumpObj, Runtime.forPairs_of_lists (fun d e => by rw [← e]) (hc.lists obj hobj)
      (hf turns hturns m (by omega)) rfl (by omega)]
    rfl

/-! ## Each table once -/

/-- What is expanded within a table that is reached is reached. -/
theorem Lines.Of.dumped {obj : Nat} {l : List (Value × Value)} {L : Lines}
    (hof : Lines.Of text fields key l L) (hobj : Dumped fields tab obj)
    (hl : l ⊆ printedFields fields obj) : ∀ t ∈ nodes L.met, Dumped fields tab t := by
  induction hof generalizing obj with
  | nil => simp [Lines.met, nodes]
  | value _ _ ih => exact ih hobj (List.subset_of_cons_subset hl)
  | shown _ _ ih => exact ih hobj (List.subset_of_cons_subset hl)
  | table _ _ ihI ih =>
    obtain ⟨he, hk⟩ := List.mem_filter.mp (hl List.mem_cons_self)
    intro t hm
    obtain ⟨p, hp⟩ := mem_nodes.mp hm
    simp only [Lines.met, List.mem_cons, List.mem_append, expanded.injEq] at hp
    rcases hp with ⟨rfl, -⟩ | hp | hp
    · exact .field hobj he hk
    · exact ihI (.field hobj he hk) (List.Subset.refl _) t (mem_nodes.mpr ⟨p, hp⟩)
    · exact ih hobj (List.subset_of_cons_subset hl) t (mem_nodes.mpr ⟨p, hp⟩)

/-- The walk meets `t`. -/
def Met (l : List (Meeting Nat String)) (t : Nat) : Prop :=
  ∃ p, expanded t p ∈ l ∨ reference t p ∈ l

theorem Met.mono {l l' : List (Meeting Nat String)} {t : Nat} (hm : Met l t)
    (h : ∀ e ∈ l, e ∈ l') : Met l' t := by
  obtain ⟨p, hp⟩ := hm
  exact ⟨p, hp.imp (h _) (h _)⟩

/-- The tables in the fields of a table are met with its lines, and so are those of each table that
is expanded. -/
theorem Lines.Of.meets {l : List (Value × Value)} {L : Lines} (hof : Lines.Of text fields key l L) :
    (∀ k t, (k, .table t) ∈ l → Met L.met t) ∧
      ∀ u ∈ nodes L.met, ∀ k t, (k, .table t) ∈ printedFields fields u → Met L.met t := by
  induction hof with
  | nil => simp [Lines.met, nodes]
  | value hv _ ih =>
    refine ⟨fun k t hm => ?_, ih.2⟩
    rcases List.mem_cons.mp hm with e | hm
    · cases e
      exact absurd rfl (hv t)
    · exact ih.1 k t hm
  | @shown t₀ key k₀ l L path _ ih =>
    have hL : ∀ e ∈ L.met, e ∈ (Lines.shown k₀ t₀ path L).met := fun e he =>
      List.mem_cons_of_mem _ he
    refine ⟨fun k t hm => ?_, fun u hu k t hm => (ih.2 u hu k t hm).mono hL⟩
    rcases List.mem_cons.mp hm with e | hm
    · cases e
      exact ⟨path, .inr List.mem_cons_self⟩
    · exact (ih.1 k t hm).mono hL
  | @table t₀ key k₀ l I L _ _ ihI ih =>
    have hI : ∀ e ∈ I.met, e ∈ (Lines.table k₀ t₀ (key ++ "." ++ text k₀) I L).met :=
      fun e he => List.mem_cons_of_mem _ (List.mem_append_left _ he)
    have hL : ∀ e ∈ L.met, e ∈ (Lines.table k₀ t₀ (key ++ "." ++ text k₀) I L).met :=
      fun e he => List.mem_cons_of_mem _ (List.mem_append_right _ he)
    refine ⟨fun k t hm => ?_, fun u hu k t hm => ?_⟩
    · rcases List.mem_cons.mp hm with e | hm
      · cases e
        exact ⟨_, .inl List.mem_cons_self⟩
      · exact (ih.1 k t hm).mono hL
    · obtain ⟨p, hp⟩ := mem_nodes.mp hu
      simp only [Lines.met, List.mem_cons, List.mem_append, expanded.injEq] at hp
      rcases hp with ⟨rfl, -⟩ | hp | hp
      · exact (ihI.1 k t hm).mono hI
      · exact (ihI.2 u (mem_nodes.mpr ⟨p, hp⟩) k t hm).mono hI
      · exact (ih.2 u (mem_nodes.mpr ⟨p, hp⟩) k t hm).mono hL

/-- The tables that a dump of `tab` meets, `tab` itself first. -/
def Lines.walk (tab : Nat) (L : Lines) : List (Meeting Nat String) := expanded tab "." :: L.met

/-- The tables that a dump expands are closed under the fields that are printed. -/
theorem Lines.Of.closed {L : Lines} (hof : Lines.Of text fields "" (printedFields fields tab) L)
    (hlegal : Legal [] (L.walk tab)) {u t : Nat} (hu : u ∈ nodes (L.walk tab))
    (he : (k, .table t) ∈ printedFields fields u) : t ∈ nodes (L.walk tab) := by
  have hmet : Met (L.walk tab) t := by
    rcases List.mem_cons.mp hu with rfl | hu
    · exact (hof.meets.1 k t he).mono fun e he => List.mem_cons_of_mem _ he
    · exact (hof.meets.2 u hu k t he).mono fun e he => List.mem_cons_of_mem _ he
  obtain ⟨p, hp | hp⟩ := hmet
  · exact mem_nodes.mpr ⟨p, hp⟩
  · -- a reference is to what has been expanded before
    obtain ⟨pre, post, hsplit⟩ := List.append_of_mem hp
    have hfirst := hlegal.first hsplit
    rw [hsplit]
    refine mem_nodes.mpr ⟨p, List.mem_append_left _ ?_⟩
    simpa using hfirst

/-- `tostring` of a table returns, whatever the tables refer to, if what it calls is calm: it lays
out the lines of the tables that it reaches, each expanded once, and elsewhere shown by the path of
its expansion, which comes before. -/
theorem tostring_expands (R : Runtime) (h : Heap) (text : Value → String)
    (fields : Nat → List (Value × Value)) (tab : Nat) (hc : Calm text fields R h tab)
    (hfin : ∀ t, Dumped fields tab t → t < h.size) :
    ∃ L : Lines,
      (∃ n, ∀ turns ≥ n, ∀ fuel ≥ n,
        tostring R turns fuel (.table tab) h = .ok (block 1 (L.layout text 1), h)) ∧
      Lines.Of text fields "" (printedFields fields tab) L ∧
      (nodes (L.walk tab)).Nodup ∧
      (∀ t, t ∈ nodes (L.walk tab) ↔ Dumped fields tab t) ∧
      ∀ pre t path post, L.walk tab = pre ++ reference t path :: post →
        expanded t path ∈ pre := by
  have hnew := new_le (List.range h.size) [(tab, ".")]
  rw [List.length_range] at hnew
  let longest := (Finset.range h.size).sup fun t => (fields t).length
  have hlongest : ∀ t, Dumped fields tab t → (fields t).length ≤ longest := fun t ht =>
    Finset.le_sup (f := fun t => (fields t).length) (Finset.mem_range.mpr (hfin t ht))
  obtain ⟨L, hr, hof, hlegal⟩ := dumpObj_lines hc hfin hlongest (h.size + 1) tab "" 1 [(tab, ".")]
    .refl (by omega)
  have hwalk : Legal [] (L.walk tab) := ⟨by simp, hlegal⟩
  refine ⟨L, ⟨longest + h.size + 1, fun turns hturns fuel hfuel => ?_⟩, hof, hwalk.nodup.1,
    fun t => ⟨fun ht => ?_, fun ht => ?_⟩, fun pre t path post hsplit => ?_⟩
  · show dump R turns fuel tab h = _
    have hdump : dumpObj R turns fuel tab "" 1 [(tab, ".")] h = _ :=
      hr turns (by omega) fuel (by omega)
    rw [dump, hdump]
    rfl
  · rcases List.mem_cons.mp ht with rfl | ht
    · exact .refl
    · exact hof.dumped .refl (List.Subset.refl _) t ht
  · induction ht with
    | refl => exact List.mem_cons_self
    | field _ he hk ih => exact hof.closed hwalk ih (List.mem_filter.mpr ⟨he, hk⟩)
  · simpa using hwalk.first hsplit

/-- Without metatables a dump goes through the fields as they are. -/
theorem calm_still (hm : ∀ t, h.metatable t = none) :
    Calm Runtime.stillText (fun t => (h.table t).keys.map fun k => (k, h.get t k)) .still h tab where
  lists t _ := Runtime.lists_still (hm t)
  key _ _ _ _ _ _ := Runtime.tolstring_still fun t _ => hm t
  value _ _ _ _ _ _ _ := Runtime.tolstring_still fun t _ => hm t

end

/-- Two tables, which refer to each other and one to itself, and one of which is a key. -/
def ringHeap : Heap :=
  let empty : Heap := ⟨2, fun _ => .empty, fun _ => [], fun _ => .nil⟩
  (((empty.set 0 (.str "next") (.table 1)).set 0 (.table 1) (.num 7)).set 1 (.str "back")
    (.table 0)).set 1 (.str "self") (.table 1)

theorem ringHeap_get_lt (t t' : Nat) (k : Value) (ht : ringHeap.get t k = .table t') : t' < 2 := by
  simp only [ringHeap, Heap.get_set] at ht
  split at ht
  · cases ht; decide
  split at ht
  · cases ht; decide
  split at ht
  · cases ht
  split at ht
  · cases ht; decide
  · cases ht

theorem ringHeap_metatable (t : Nat) : ringHeap.metatable t = none := by
  simp only [ringHeap, Heap.metatable_set]
  rfl

/-- What `pairs` gives of the two tables. -/
def ringFields (t : Nat) : List (Value × Value) :=
  (ringHeap.table t).keys.map fun k => (k, ringHeap.get t k)

theorem tostring_expands_ring :
    ((tostring .still 3 3 (.table 0) ringHeap).toOption.map Prod.fst) =
      some ("\x7b\n\t[table: 0x1] = 7\n\t[\"next\"]     = \x7b\n" ++
        "\t\t[\"self\"] = [.next]\n\t\t[\"back\"] = [.]\n\t\x7d\n\x7d") ∧
    ∃ L : Lines,
      (∃ n, ∀ turns ≥ n, ∀ fuel ≥ n, tostring .still turns fuel (.table 0) ringHeap =
        .ok (block 1 (L.layout Runtime.stillText 1), ringHeap)) ∧
      (nodes (L.walk 0)).Nodup ∧
      (∀ t, t ∈ nodes (L.walk 0) ↔ Dumped ringFields 0 t) ∧
      ∀ pre t path post, L.walk 0 = pre ++ reference t path :: post → expanded t path ∈ pre := by
  have hfin : ∀ t, Dumped ringFields 0 t → t < 2 := by
    intro t ht
    cases ht with
    | refl => decide
    | field _ he _ =>
      obtain ⟨k, -, e⟩ := List.mem_map.mp he
      exact ringHeap_get_lt _ _ k (Prod.ext_iff.mp e).2
  obtain ⟨L, htext, -, hmet⟩ := tostring_expands .still ringHeap Runtime.stillText ringFields 0
    (calm_still ringHeap_metatable) hfin
  exact ⟨by decide +kernel, L, htext, hmet⟩

/-- A table whose `__pairs` is the function 0. -/
def pairsHeap : Heap :=
  let empty : Heap := ⟨2, fun _ => .empty, fun _ => [], fun _ => .nil⟩
  (empty.set 1 (.str "__pairs") (.func 0)).setMeta 0 (some 1)

theorem pairsHeap_get (t : Nat) (k : Value) :
    pairsHeap.get t k = if t = 1 ∧ k = .str "__pairs" then .func 0 else .nil := by
  rw [pairsHeap, Heap.get_setMeta, Heap.get_set]
  rfl

theorem pairsHeap_closed : pairsHeap.Closed where
  field t k u _ hu := by
    rw [pairsHeap_get] at hu
    split at hu <;> cases hu
  key t u _ hu := by simp [pairsHeap_get] at hu
  metatable t m _ hm := by
    rw [pairsHeap, Heap.metatable_setMeta] at hm
    split at hm
    · cases hm
      decide
    · rw [Heap.metatable_set] at hm
      cases hm

/-- A function that raises. -/
def raising : Runtime := { Runtime.still with call := fun _ _ _ => .error (some ()) }

/-- A `__pairs` that raises stops the dump. -/
theorem pairs_raises : ¬ ∀ (R : Runtime) (h : Heap) (tab : Nat), h.Closed → tab < h.size →
    ∃ turns fuel text h', tostring R turns fuel (.table tab) h = .ok (text, h') := by
  intro hall
  obtain ⟨turns, fuel, text, h', e⟩ := hall raising pairsHeap 0 pairsHeap_closed (by decide)
  cases fuel <;> cases e

end SkynetHotfix.Luaext
