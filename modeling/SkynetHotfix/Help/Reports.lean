import SkynetHotfix.Help.Basic

/-!
# How a failure is reported

A failure is reported (`IsReport`) by a body that has an entry of an error under its name and nothing
else. A body that a handler returns is one as soon as `rq_pcall` has taken its mark away, but
for the name `err`, which the mark has overwritten. What a handler raises keeps the mark: a table is
handed on as it is, and for anything else `f_error` makes a new body that is marked
(`rq_pcall_reports_iff`).
-/

namespace SkynetHotfix.Help

open Lua

variable {α β : Type} {env : Env} {h h' : Heap} {msg v : Value}

/-- A table with an error number and a text. -/
def IsEntry (h : Heap) (body : Nat) : Prop :=
  ∃ err_no err_msg : Value, err_no ≠ .nil ∧ err_msg ≠ .nil ∧ ∀ k, h.get body k =
    if k = .str "err_no" then err_no else if k = .str "err_msg" then err_msg else .nil

/-- A body `{ [msg] = { err_no, err_msg } }` without a mark. -/
def IsReport (h : Heap) (v : Value) : Prop :=
  ∃ t body msg, v = .table t ∧ msg ≠ .str "err" ∧ IsEntry h body ∧
    ∀ k, h.get t k = if k = msg then .table body else .nil

/-- A body as `f_error` makes it. -/
def Made (h : Heap) (msg v : Value) : Prop :=
  ∃ t body, v = .table t ∧ h.metatable t = none ∧ IsEntry h body ∧
    ∀ k, h.get t k = if k = .str "err" then .bool true else if k = msg then .table body else .nil

/-- A handler returns an error body, or raises. -/
def Fails (f : Run (List Value)) (h : Heap) : Prop :=
  (∃ v rest h' msg, outcome f h = (.ok (v :: rest), h') ∧ Made h' msg v) ∨
    ∃ err h', outcome f h = (.error err, h')

/-- The caller of a handler receives a report. -/
def Reports (env : Env) (f : Run (List Value)) (h : Heap) : Prop :=
  ∃ v rest h', outcome (rq_pcall env f) h = (.ok (v :: rest), h') ∧ IsReport h' v

theorem outcome_bind (x : Run α) (f : α → Run β) (h : Heap) :
    outcome (x >>= f) h = match outcome x h with
      | (.ok a, h') => outcome (f a) h'
      | (.error err, h') => (.error err, h') := by
  show ((ExceptT.bindCont f) (x.run.run h).1).run (x.run.run h).2 = _
  unfold outcome
  rcases x.run.run h with ⟨_ | _, _⟩ <;> rfl

/-- A marked body is no report. -/
theorem Made.not_report (hv : Made h msg v) : ¬ IsReport h v := by
  rintro ⟨t, body, msg', rfl, hne, -, hget⟩
  obtain ⟨t', body', ht, -, -, hget'⟩ := hv
  obtain rfl := Value.table.inj ht
  have hmark := hget (.str "err")
  rw [hget' (.str "err"), if_pos rfl, if_neg (Ne.symm hne)] at hmark
  cases hmark

/-- The heap in which a body has been made, over two new tables. -/
def withBody (h : Heap) (msg err_no err_msg : Value) : Heap :=
  (((h.newTable.2.newTable.2.set (h.size + 1) (.str "err_no") err_no).set (h.size + 1)
    (.str "err_msg") err_msg).set h.size msg (.table (h.size + 1))).set h.size (.str "err")
    (.bool true)

theorem outcome_f_error (hlog : ∀ l, env.log l = .ok ()) {err_no format_string err_msg : Value}
    {args : List Value} (hmsg : errMsg env err_no format_string args = .ok err_msg) (h : Heap) :
    outcome (f_error env msg err_no format_string args) h = (.ok (.table h.size),
      withBody h (if msg.truthy then msg else .str "error_res")
        (if err_no.truthy then err_no else .num (-1)) err_msg) := by
  rw [f_error, hlog, hmsg]
  rfl

section WithBody

variable {err_no err_msg : Value}

theorem metatable_withBody (h : Heap) (msg err_no err_msg : Value) :
    (withBody h msg err_no err_msg).metatable h.size = none ∧
      (withBody h msg err_no err_msg).metatable (h.size + 1) = none := by
  have hsize : h.newTable.2.size = h.size + 1 := rfl
  have herr : h.newTable.2.newTable.2.table h.size = h.newTable.2.table h.size :=
    Heap.table_newTable_ne _ (by rw [hsize]; omega)
  simp only [withBody, Heap.metatable_set]
  exact ⟨by rw [Heap.metatable_congr herr, Heap.metatable_newTable],
    by rw [← hsize, Heap.metatable_newTable]⟩

/-- The entry that is made. -/
theorem get_withBody_entry (h : Heap) (k : Value) :
    (withBody h msg err_no err_msg).get (h.size + 1) k =
      if k = .str "err_msg" then err_msg else if k = .str "err_no" then err_no else .nil := by
  have hsize : h.newTable.2.size = h.size + 1 := rfl
  have hbody : h.newTable.2.newTable.2.get (h.size + 1) k = .nil := by
    rw [← hsize, Heap.get_newTable]
  have hne : ¬ h.size + 1 = h.size := by omega
  simp only [withBody, Heap.get_set, hbody, hne, false_and, if_false, true_and]

/-- The body over it. -/
theorem get_withBody (h : Heap) (k : Value) :
    (withBody h msg err_no err_msg).get h.size k =
      if k = .str "err" then .bool true else if k = msg then .table (h.size + 1) else .nil := by
  have hsize : h.newTable.2.size = h.size + 1 := rfl
  have herr : h.newTable.2.newTable.2.table h.size = h.newTable.2.table h.size :=
    Heap.table_newTable_ne _ (by rw [hsize]; omega)
  have hne : ¬ h.size = h.size + 1 := by omega
  simp only [withBody, Heap.get_set, hne, false_and, if_false, true_and]
  rw [Heap.get_congr herr, Heap.get_newTable]

theorem withBody_made (hno : err_no ≠ .nil) (hmsg : err_msg ≠ .nil) (h : Heap) :
    Made (withBody h msg err_no err_msg) msg (.table h.size) := by
  refine ⟨h.size, h.size + 1, rfl, (metatable_withBody h _ _ _).1, ⟨err_no, err_msg, hno, hmsg, ?_⟩,
    get_withBody h⟩
  intro k
  rw [get_withBody_entry]
  by_cases hk : k = .str "err_no"
  · subst hk
    exact (if_neg (by simp)).trans ((if_pos rfl).trans (if_pos rfl).symm)
  · rw [if_neg hk, if_neg hk]

end WithBody

theorem ne_nil_of_truthy (hv : v.truthy) : v ≠ .nil := by
  rintro rfl
  cases hv

theorem errMsg_ne_nil {err_no format_string err_msg : Value} {args : List Value}
    (hmsg : errMsg env err_no format_string args = .ok err_msg) : err_msg ≠ .nil := by
  simp only [errMsg] at hmsg
  split_ifs at hmsg with hformat hnone hget
  · cases hs : env.format format_string args with
    | error err =>
      rw [hs] at hmsg
      cases hmsg
    | ok s =>
      rw [hs] at hmsg
      obtain rfl := Except.ok.inj hmsg
      simp
  · exact Except.ok.inj hmsg ▸ ne_nil_of_truthy hget
  · exact Except.ok.inj hmsg ▸ by simp
  · exact Except.ok.inj hmsg ▸ ne_nil_of_truthy (by simpa using hnone)

/-- What `f_error` returns is marked. -/
theorem f_error_made (hlog : ∀ l, env.log l = .ok ()) {err_no format_string err_msg : Value}
    {args : List Value} (hmsg : errMsg env err_no format_string args = .ok err_msg) (h : Heap) :
    ∃ v h', outcome (f_error env msg err_no format_string args) h = (.ok v, h') ∧
      Made h' (if msg.truthy then msg else .str "error_res") v := by
  refine ⟨_, _, outcome_f_error hlog hmsg h, withBody_made ?_ (errMsg_ne_nil hmsg) h⟩
  split_ifs with hno
  · exact ne_nil_of_truthy hno
  · simp

/-- A body that is raised by `AssertEx`. -/
theorem AssertEx_made (hlog : ∀ l, env.log l = .ok ()) {a err_no format_string err_msg : Value}
    {args : List Value} (ha : a.truthy = false)
    (hmsg : errMsg env err_no format_string args = .ok err_msg) (h : Heap) :
    ∃ v h', outcome (AssertEx env a msg err_no format_string args) h = (.error v, h') ∧
      Made h' (if msg.truthy then msg else .str "error_res") v := by
  obtain ⟨v, h', hv, hmade⟩ : ∃ v h', outcome (f_error env msg err_no format_string args) h =
      (.ok v, h') ∧ Made h' (if msg.truthy then msg else .str "error_res") v :=
    f_error_made hlog hmsg h
  refine ⟨v, h', ?_, hmade⟩
  rw [AssertEx, ha, Bool.not_false, if_pos rfl, outcome_bind, hv]
  rfl

/-! ## What `rq_pcall` makes of it -/

variable {f : Run (List Value)}

theorem outcome_x_pcall (f : Run (List Value)) (h : Heap) : outcome (x_pcall env f) h =
    match outcome f h with
    | (.ok results, h) => (.ok (.ok results), h)
    | (.error err, h) => (.ok (.error (traceback env err)), h) := rfl

/-- A body that is returned loses its mark. -/
theorem outcome_returned (env : Env) {rest : List Value} (hf : outcome f h = (.ok (v :: rest), h'))
    (hv : Made h' msg v) :
    ∃ t, v = .table t ∧
      outcome (rq_pcall env f) h = (.ok (v :: rest), h'.set t (.str "err") .nil) := by
  obtain ⟨t, body, rfl, -, -, hget⟩ := hv
  have hmark : h'.get t (.str "err") = .bool true := by rw [hget, if_pos rfl]
  have hne : h'.get t (.str "err") ≠ .nil := by simp [hmark]
  have hindex := Heap.index_of_get hne
  have hnew : h'.newindex t (.str "err") .nil = some (h'.set t (.str "err") .nil) := by
    rw [Heap.newindex, Heap.walk_of_get hne, Option.map_some]
  refine ⟨t, rfl, ?_⟩
  have hthe : outcome (getThe Heap) h' = (.ok h', h') := rfl
  rw [rq_pcall, outcome_bind, outcome_x_pcall, hf]
  simp only [List.headD_cons, List.tail_cons, outcome_bind, hthe, hindex, hmark]
  rw [if_pos (show (Value.bool true).truthy from rfl), outcome_bind, hthe]
  simp only [hnew]
  rfl

/-- For anything else that is raised a body is made, with its mark. -/
theorem outcome_raised (hlog : ∀ l, env.log l = .ok ()) {err : Value} (herr : err.type ≠ .table)
    (hf : outcome f h = (.error err, h')) :
    ∃ v h'', outcome (rq_pcall env f) h = (.ok [v], h'') ∧ Made h'' (.str "error_res") v := by
  obtain ⟨v, h'', hv, hmade⟩ : ∃ v h'', outcome (f_error env .nil (.num (-1))
      (.str "internal error") []) h' = (.ok v, h'') ∧ Made h'' (.str "error_res") v :=
    f_error_made hlog rfl h'
  refine ⟨v, h'', ?_, hmade⟩
  have hterr : (traceback env err).type ≠ .table := by
    cases err <;> simp_all [traceback, Value.type]
  rw [rq_pcall, outcome_bind, outcome_x_pcall, hf]
  have hlift : outcome (lift (.ok ())) h' = (.ok (), h') := rfl
  simp only [if_pos hterr, hlog, outcome_bind, hlift, hv]
  rfl

/-- A table that is raised is handed on. -/
theorem outcome_raised_table {t : Nat} (hf : outcome f h = (.error (.table t), h')) :
    outcome (rq_pcall env f) h = (.ok [.table t], h') := by
  rw [rq_pcall, outcome_bind, outcome_x_pcall, hf]
  rfl

/-! ## What is reported -/

/-- Without its mark a body is a report, unless the mark has overwritten the entry. -/
theorem Made.cleared_iff {t : Nat} (hv : Made h msg (.table t)) :
    IsReport (h.set t (.str "err") .nil) (.table t) ↔ msg ≠ .str "err" := by
  obtain ⟨t', body, ht, -, ⟨err_no, err_msg, hno, hmsg, hbody⟩, hget⟩ := hv
  obtain rfl := Value.table.inj ht
  have hcleared : ∀ k, (h.set t (.str "err") .nil).get t k =
      if k = .str "err" then .nil else if k = msg then .table body else .nil := by
    intro k
    rw [Heap.get_set, hget]
    by_cases hk : k = .str "err" <;> simp [hk]
  constructor
  · rintro ⟨t', body', msg', ht, hne, -, hget'⟩ rfl
    obtain rfl := Value.table.inj ht
    have hentry := hget' msg'
    rw [hcleared, if_neg hne, if_neg hne, if_pos rfl] at hentry
    cases hentry
  · intro hne
    have hbt : body ≠ t := by
      rintro rfl
      have hmark := hget (.str "err")
      rw [hbody, if_pos rfl] at hmark
      simp at hmark
    refine ⟨t, body, msg, rfl, hne, ⟨err_no, err_msg, hno, hmsg, fun k => ?_⟩, fun k => ?_⟩
    · rw [Heap.get_set, if_neg (fun h => hbt h.1), hbody]
    · rw [hcleared]
      by_cases hk : k = .str "err"
      · rw [if_pos hk, if_neg (fun h => hne (h.symm.trans hk))]
      · rw [if_neg hk]

/-- A failure is reported just when it is a body that is returned and not named `err`, or a table
that is raised and is a report already. -/
theorem rq_pcall_reports_iff (hlog : ∀ l, env.log l = .ok ()) (f : Run (List Value)) (h : Heap) :
    (∀ v rest h' msg, outcome f h = (.ok (v :: rest), h') → Made h' msg v →
      (Reports env f h ↔ msg ≠ .str "err")) ∧
    ∀ err h', outcome f h = (.error err, h') → (Reports env f h ↔ IsReport h' err) := by
  have key : ∀ {v rest h'}, outcome (rq_pcall env f) h = (.ok (v :: rest), h') →
      (Reports env f h ↔ IsReport h' v) := by
    intro v rest h' hrq
    constructor
    · rintro ⟨v', rest', h'', hrq', hreport⟩
      obtain ⟨hl, rfl⟩ := Prod.mk.inj (hrq'.symm.trans hrq)
      obtain ⟨rfl, -⟩ := List.cons.inj (Except.ok.inj hl)
      exact hreport
    · exact fun hreport => ⟨v, rest, h', hrq, hreport⟩
  constructor
  · intro v rest h' msg hf hmade
    obtain ⟨t, rfl, hrq⟩ := outcome_returned env hf hmade
    rw [key hrq, hmade.cleared_iff]
  · intro err h' hf
    by_cases herr : err.type = .table
    · obtain ⟨t, rfl⟩ : ∃ t, err = .table t := by cases err <;> simp_all [Value.type]
      exact key (outcome_raised_table hf)
    · obtain ⟨v, h'', hrq, hmade⟩ := outcome_raised hlog herr hf
      rw [key hrq]
      refine ⟨fun hreport => absurd hreport hmade.not_report, ?_⟩
      rintro ⟨t, -, -, rfl, -⟩
      exact absurd rfl herr

/-- A service without texts and with a silent logger. -/
def quiet : Env :=
  ⟨fun _ => .ok (), fun _ => .nil, fun _ _ => .ok "", fun _ => "", fun _ => "", fun _ => ""⟩

/-- A heap without tables. -/
def noTables : Heap := ⟨0, fun _ => .empty, fun _ => [], fun _ => .nil⟩

theorem rq_pcall_reports_iff_returned : Reports quiet
    (do return [← f_error quiet (.str "res") (.num 7) (.str "no money") []]) noTables := by
  obtain ⟨v, h', hv, hmade⟩ : ∃ v h', outcome (f_error quiet (.str "res") (.num 7)
      (.str "no money") []) noTables = (.ok v, h') ∧ Made h' (.str "res") v :=
    f_error_made (fun _ => rfl) rfl noTables
  refine ((rq_pcall_reports_iff (fun _ => rfl) _ noTables).1 v [] h' (.str "res") ?_ hmade).mpr
    (by decide)
  rw [outcome_bind, hv]
  rfl

/-- The same body comes with its mark when it is raised. -/
theorem raised_body_marked : ¬ ∀ env : Env, (∀ l, env.log l = .ok ()) → ∀ f h, Fails f h →
    Reports env f h := by
  intro hall
  obtain ⟨v, h', hv, hmade⟩ : ∃ v h', outcome (AssertEx quiet (.bool false) (.str "res") (.num 7)
      (.str "no money") []) noTables = (.error v, h') ∧ Made h' (.str "res") v :=
    AssertEx_made (fun _ => rfl) rfl rfl noTables
  let f : Run (List Value) := do
    AssertEx quiet (.bool false) (.str "res") (.num 7) (.str "no money") []
    return []
  have hf : outcome f noTables = (.error v, h') := by
    rw [outcome_bind, hv]
  obtain ⟨t, ht⟩ : ∃ t, v = .table t := by
    obtain ⟨t, -, rfl, -⟩ := hmade
    exact ⟨t, rfl⟩
  subst ht
  obtain ⟨v', rest, h'', hrq, hreport⟩ := hall quiet (fun _ => rfl) f noTables (.inr ⟨_, h', hf⟩)
  rw [outcome_raised_table hf] at hrq
  obtain ⟨hl, rfl⟩ := Prod.mk.inj hrq
  obtain ⟨rfl, -⟩ := List.cons.inj (Except.ok.inj hl)
  exact hmade.not_report hreport

end SkynetHotfix.Help
