import Mathlib.Data.List.Forall2
import Mathlib.Order.BooleanAlgebra.Set
import SkynetHotfix.Dispatch.Basic
import SkynetHotfix.Help.Reports

/-!
# Error bodies by values

`f_error`, `x_pcall` and `rq_pcall` of the dispatchers take a table for what is in
it. They do what the functions on the heap do (`rq_pcall_values`), where what
a handler returns after a body does not have the body in it: on the heap it would
lose its mark there too.
-/

namespace SkynetHotfix.Help

open Lua

variable {α β : Type} {env : Env} {env' : Dispatch.Env} {h h' : Heap} {v : Value}
  {w : Dispatch.Value} {S S' : Set Nat}

/-! ## What is in a value -/

/-- A value that is no table. -/
inductive Atom : Value → Dispatch.Value → Prop
  | nil : Atom .nil .nil
  | bool (b : Bool) : Atom (.bool b) (.bool b)
  | num (n : Int) : Atom (.num n) (.num n)
  | str (s : String) : Atom (.str s) (.str s)
  | func (id : Nat) : Atom (.func id) (.other id)
  | userdata (id : Nat) : Atom (.userdata id) (.other id)

/-- A value of the heap has the fields of a value that is sent, in tables of `S`. -/
inductive Holds (h : Heap) : Set Nat → Value → Dispatch.Value → Prop
  | atom {S : Set Nat} {v : Value} {w : Dispatch.Value} (hv : Atom v w) : Holds h S v w
  | table {S : Set Nat} {t : Nat} {fields : List (String × Dispatch.Value)} (ht : t ∈ S)
      (hplain : h.metatable t = none)
      (hnone : ∀ key, fields.lookup key = none → h.get t (.str key) = .nil)
      (hsome : ∀ key w, fields.lookup key = some w →
        Holds h (S \ {t}) (h.get t (.str key)) w) : Holds h S (.table t) (.table fields)

theorem Holds.mono (hv : Holds h S v w) (hS : S ⊆ S') : Holds h S' v w := by
  induction hv generalizing S' with
  | atom hv => exact .atom hv
  | table ht hplain hnone _ ih =>
    exact .table (hS ht) hplain hnone fun key w hw => ih key w hw (Set.sdiff_subset_sdiff_left hS)

/-- Tables that are not in a value may change. -/
theorem Holds.set (hv : Holds h S v w) {t : Nat} (ht : t ∉ S) (k x : Value) :
    Holds (h.set t k x) S v w := by
  induction hv with
  | atom hv => exact .atom hv
  | @table S u fields hu hplain hnone _ ih =>
    have hget : ∀ key, (h.set t k x).get u (.str key) = h.get u (.str key) := fun key => by
      have hne : ¬ (u = t ∧ Value.str key = k) := fun e => ht (e.1 ▸ hu)
      rw [Heap.get_set, if_neg hne]
    refine .table hu (by rw [Heap.metatable_set, hplain]) (fun key hkey => ?_) fun key w hw => ?_
    · rw [hget, hnone key hkey]
    · rw [hget]
      exact ih key w hw fun e => ht e.1

theorem Holds.truthy (hv : Holds h S v w) : v.truthy = w.truthy := by
  cases hv with
  | atom hv => cases hv <;> rfl
  | table => rfl

theorem Holds.isTable (hv : Holds h S v w) : w.isTable = decide (v.type = .table) := by
  cases hv with
  | atom hv => cases hv <;> rfl
  | table => rfl

section Fields

variable {t : Nat} {fields : List (String × Dispatch.Value)}

theorem Holds.plain (hv : Holds h S (.table t) w) : h.metatable t = none := by
  cases hv with
  | atom hv => cases hv
  | table _ hplain => exact hplain

theorem Holds.field (hv : Holds h S (.table t) w) (key : String) :
    Holds h (S \ {t}) (h.get t (.str key)) (w.field key) := by
  cases hv with
  | atom hv => cases hv
  | @table _ _ fields _ _ hnone hsome =>
    rw [Dispatch.Value.field]
    cases hkey : fields.lookup key with
    | none =>
      rw [hnone key hkey]
      exact .atom .nil
    | some w => exact hsome key w hkey

theorem lookup_field (key key' : String) (w : Dispatch.Value) :
    List.lookup key' ((key, w) :: fields) = if key' = key then some w else fields.lookup key' := by
  rw [List.lookup_cons]
  by_cases hkey : key' = key
  · rw [if_pos hkey, beq_iff_eq.mpr hkey]
  · rw [if_neg hkey, beq_false_of_ne hkey]

theorem lookup_clear (key key' : String) :
    (fields.filter fun entry => entry.1 != key).lookup key' =
      if key' = key then none else fields.lookup key' := by
  induction fields with
  | nil => rw [List.filter_nil, List.lookup_nil, ite_self]
  | cons entry fields ih =>
    obtain ⟨name, x⟩ := entry
    rw [lookup_field]
    by_cases hname : name = key
    · rw [List.filter_cons_of_neg (by simpa using hname), ih, hname]
      split <;> rfl
    · rw [List.filter_cons_of_pos (by simpa using hname), lookup_field, ih]
      by_cases hkey : key' = name
      · rw [if_pos hkey, if_pos hkey, hkey, if_neg hname]
      · rw [if_neg hkey, if_neg hkey]

/-- A table with two fields. -/
theorem Holds.pair {key₁ key₂ : String} {v₁ v₂ : Value} {w₁ w₂ : Dispatch.Value} (ht : t ∈ S)
    (hplain : h.metatable t = none) (h₁ : h.get t (.str key₁) = v₁)
    (h₂ : h.get t (.str key₂) = v₂)
    (hnone : ∀ key, key ≠ key₁ → key ≠ key₂ → h.get t (.str key) = .nil)
    (hv₁ : Holds h (S \ {t}) v₁ w₁) (hv₂ : Holds h (S \ {t}) v₂ w₂) :
    Holds h S (.table t) (.table [(key₁, w₁), (key₂, w₂)]) := by
  refine .table ht hplain (fun key hkey => ?_) fun key w hw => ?_
  · rw [lookup_field, lookup_field] at hkey
    split_ifs at hkey with hkey₁ hkey₂
    exact hnone key hkey₁ hkey₂
  · rw [lookup_field, lookup_field] at hw
    split_ifs at hw with hkey₁ hkey₂ <;> cases hw
    · rwa [hkey₁, h₁]
    · rwa [hkey₂, h₂]

/-- A field that is taken away. -/
theorem Holds.clear (hv : Holds h S (.table t) w) (key : String) :
    Holds (h.set t (.str key) .nil) S (.table t) (w.clear key) := by
  cases hv with
  | atom hv => cases hv
  | @table _ _ fields ht hplain hnone hsome =>
    have hget : ∀ key', (h.set t (.str key) .nil).get t (.str key') =
        if key' = key then .nil else h.get t (.str key') := fun key' => by
      rw [Heap.get_set]
      by_cases hkey : key' = key
      · rw [if_pos ⟨rfl, congrArg Value.str hkey⟩, if_pos hkey]
      · have hne : ¬ (t = t ∧ Value.str key' = .str key) := fun e => hkey (Value.str.inj e.2)
        rw [if_neg hne, if_neg hkey]
    refine .table ht (by rw [Heap.metatable_set, hplain]) (fun key' hkey' => ?_)
      fun key' w hw => ?_
    · rw [lookup_clear] at hkey'
      rw [hget]
      split at hkey'
      next hkey => rw [if_pos hkey]
      next hkey => rw [if_neg hkey, hnone key' hkey']
    · rw [lookup_clear] at hw
      split at hw
      next => cases hw
      next hkey =>
        rw [hget, if_neg hkey]
        exact (hsome key' w hw).set (fun e => e.2 rfl) _ _

end Fields

/-! ## What is done by values -/

/-- What code does on the heap and what it does by values. -/
def Agrees (R : Heap → α → β → Prop) : Except Value α × Heap → Except Dispatch.Value β → Prop
  | (.ok a, h), .ok b => R h a b
  | (.error err, h), .error err' => Holds h .univ err err'
  | _, _ => False

/-- What the code relies on is the same: an error of the logger is no table. -/
structure Like (env : Env) (env' : Dispatch.Env) : Prop where
  log : ∀ {l l'}, List.Forall₂ Atom l l' →
    env.log l = .ok () ∧ Dispatch.logger.log env' .error l' = .ok () ∨
      ∃ err err', Atom err err' ∧ env.log l = .error err ∧
        Dispatch.logger.log env' .error l' = .error err'
  tostring : ∀ {v w}, Atom v w → env.tostring v = Dispatch.tostring env' w
  stack : env.stack = env'.stack

/-- Both return, or both raise. -/
theorem Agrees.elim {R : Heap → α → β → Prop} {x : Except Value α × Heap}
    {y : Except Dispatch.Value β} (hx : Agrees R x y) :
    (∃ a h b, x = (.ok a, h) ∧ y = .ok b ∧ R h a b) ∨
      ∃ err h err', x = (.error err, h) ∧ y = .error err' ∧ Holds h .univ err err' := by
  obtain ⟨r, h⟩ := x
  cases r with
  | ok a =>
    cases y with
    | ok b => exact .inl ⟨a, h, b, rfl, rfl, hx⟩
    | error err' => exact False.elim hx
  | error err =>
    cases y with
    | ok b => exact False.elim hx
    | error err' => exact .inr ⟨err, h, err', rfl, rfl, hx⟩

theorem Agrees.bind {R : Heap → α → β → Prop} {α' β' : Type} {R' : Heap → α' → β' → Prop}
    {x : Run α} {y : Except Dispatch.Value β} {f : α → Run α'} {g : β → Except Dispatch.Value β'}
    (hx : Agrees R (outcome x h) y)
    (hf : ∀ h a b, R h a b → Agrees R' (outcome (f a) h) (g b)) :
    Agrees R' (outcome (x >>= f) h) (y >>= g) := by
  rw [outcome_bind]
  rcases hx.elim with ⟨a, h', b, hout, rfl, hr⟩ | ⟨err, h', err', hout, rfl, herr⟩
  · rw [hout]
    exact hf h' a b hr
  · rw [hout]
    exact herr

/-- A line of the logger leaves the heap alone. -/
theorem Like.agrees_log (like : Like env env') {l : List Value} {l' : List Dispatch.Value}
    (hl : List.Forall₂ Atom l l') (h : Heap) :
    Agrees (fun h' _ _ => h = h') (outcome (lift (env.log l)) h)
      (Dispatch.logger.log env' .error l') := by
  rcases like.log hl with ⟨hlog, hlog'⟩ | ⟨err, err', herr, hlog, hlog'⟩
  · rw [hlog, hlog']
    exact rfl
  · rw [hlog, hlog']
    exact .atom herr

theorem traceback_values (like : Like env env') (hv : Holds h S v w) :
    Holds h S (traceback env v) (Dispatch.traceback env' w) := by
  cases hv with
  | atom hv =>
    cases hv <;> simp only [traceback, Dispatch.traceback, like.stack] <;> exact .atom (by constructor)
  | table ht hplain hnone hsome => exact .table ht hplain hnone hsome

/-- A body as it is made on the heap. -/
theorem f_error_values (like : Like env env') (err_no : Int) (format_string : String) (h : Heap) :
    Agrees (fun h v w => Holds h .univ v w)
      (outcome (f_error env .nil (.num err_no) (.str format_string) []) h)
      (Dispatch.f_error env' none err_no format_string) := by
  refine (like.agrees_log (.cons (.str _) (.cons .nil (.cons (.num _) (.cons (.str _) .nil))))
    h).bind ?_
  rintro _ - - rfl
  show Holds (withBody h (.str "error_res") (.num err_no) (.str format_string)) .univ
    (.table h.size) (.table [("error_res", .table [("err_no", .num err_no),
      ("err_msg", .str format_string)]), ("err", .bool true)])
  obtain ⟨hbody, hentry⟩ :=
    metatable_withBody h (.str "error_res") (.num err_no) (.str format_string)
  have hsize : h.size + 1 ∈ Set.univ \ {h.size} := ⟨trivial, Nat.succ_ne_self h.size⟩
  refine .pair trivial hbody (get_withBody h _) (get_withBody h _) (fun key h₁ h₂ => ?_)
    (.pair hsize hentry (get_withBody_entry h _) (get_withBody_entry h _) (fun key h₁ h₂ => ?_)
      (.atom (.num _)) (.atom (.str _))) (.atom (.bool true))
  · simp [get_withBody, h₁, h₂]
  · simp [get_withBody_entry, h₁, h₂]

/-! ## Protected calls -/

theorem x_pcall_values (like : Like env env') {R : Heap → List Value → List Dispatch.Value → Prop}
    {f : Run (List Value)} {g : Dispatch.Callback} {args : List Dispatch.Value}
    (hf : Agrees R (outcome f h) (g args)) :
    ∃ r h', outcome (x_pcall env f) h = (.ok r, h') ∧
      Agrees R (r, h') (Dispatch.x_pcall env' g args) := by
  rw [outcome_x_pcall, Dispatch.x_pcall]
  rcases hf.elim with ⟨results, h', results', hout, hg, hr⟩ | ⟨err, h', err', hout, hg, herr⟩
  · rw [hout, hg]
    exact ⟨.ok results, h', rfl, hr⟩
  · rw [hout, hg]
    exact ⟨.error (traceback env err), h', rfl, traceback_values like herr⟩

/-- What a handler returns: if the first is a table, then it is not in the others. -/
structure Returned (h : Heap) (results : List Value) (results' : List Dispatch.Value) : Prop where
  head : Holds h .univ (results.headD .nil) (results'.headD .nil)
  tail : List.Forall₂ (Holds h {t | results.headD .nil ≠ .table t}) results.tail results'.tail

/-- Lists of values with the same in them. -/
def Listed (h : Heap) : List Value → List Dispatch.Value → Prop := List.Forall₂ (Holds h .univ)

theorem Returned.listed {results : List Value} {results' : List Dispatch.Value}
    (hr : Returned h results results') :
    Listed h (results.headD .nil :: results.tail) (Dispatch.atLeastOne results') :=
  .cons hr.head (hr.tail.imp fun _ _ hv => hv.mono (Set.subset_univ _))

/-- A body that has lost its mark. -/
theorem Returned.cleared {results : List Value} {results' : List Dispatch.Value} {t : Nat}
    (hr : Returned h results results') (ht : results.headD .nil = .table t) :
    Listed (h.set t (.str "err") .nil) (results.headD .nil :: results.tail)
      ((results'.headD .nil).clear "err" :: results'.tail) := by
  have hhead := hr.head
  rw [ht] at hhead ⊢
  refine .cons (hhead.clear "err") (hr.tail.imp fun _ _ hv => ?_)
  exact (hv.set (fun hne => hne ht) _ _).mono (Set.subset_univ _)

/-- What `rq_pcall` does by values it does on the heap. -/
theorem rq_pcall_values (like : Like env env') {f : Run (List Value)} {g : Dispatch.Callback}
    {args : List Dispatch.Value} (hf : Agrees Returned (outcome f h) (g args)) :
    Agrees Listed (outcome (rq_pcall env f) h) (Dispatch.rq_pcall env' g args) := by
  obtain ⟨r, h', hx, hr⟩ := x_pcall_values like hf
  rw [rq_pcall, outcome_bind, hx, Dispatch.rq_pcall]
  rcases hr.elim with ⟨results, h'', results', hr, hr', hreturned⟩ | ⟨err, h'', err', hr, hr', herr⟩
  · cases hr
    rw [hr']
    have hhead := hreturned.head
    have hlisted := hreturned.listed
    dsimp only
    rw [hhead.isTable]
    cases htable : results.headD .nil with
    | table t =>
      rw [htable] at hhead hlisted
      have hthe : outcome (getThe Heap) h' = (.ok h', h') := rfl
      simp only [outcome_bind, hthe, Heap.index_of_none hhead.plain]
      rw [← (hhead.field "err").truthy]
      cases herr : (h'.get t (.str "err")).truthy with
      | true =>
        have hcleared := hreturned.cleared htable
        rw [htable] at hcleared
        simp only [if_true, outcome_bind, hthe, Heap.newindex_of_none hhead.plain]
        exact hcleared
      | false => exact hlisted
    | _ =>
      rw [htable] at hlisted
      exact hlisted
  · cases hr
    rw [hr']
    dsimp only
    rw [herr.isTable]
    by_cases htable : err.type = .table
    · rw [if_neg (not_not.mpr htable), decide_eq_true htable]
      exact .cons herr .nil
    · rw [if_pos htable, decide_eq_false htable]
      have hatom : Atom err err' := by
        cases herr with
        | atom hv => exact hv
        | table => exact absurd rfl htable
      rw [like.tostring hatom]
      refine (like.agrees_log (.cons (.str _) .nil) h').bind ?_
      rintro _ - - rfl
      refine (f_error_values like (-1) "internal error" h').bind fun h'' v w hv => ?_
      exact .cons hv .nil

end SkynetHotfix.Help
