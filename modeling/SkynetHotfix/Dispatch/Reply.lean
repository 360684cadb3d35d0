import SkynetHotfix.Dispatch.Basic

/-!
# Dispatchers: whether a call is answered

A run that ends in `retpack` or in an error sends its caller one reply
(`Answers`). `dispatchMessage` always does; `dispatch_command` does for the
commands it knows, and returns without a word for another
(`unknown_unanswered`, `one_reply`).
-/

namespace SkynetHotfix.Dispatch

variable {env : Env} {α : Type}

/-- The caller of a message gets one reply. -/
def Answers (run : Run Unit) : Prop :=
  ∀ session, session ≠ 0 → (raw_dispatch_message run session).length = 1

theorem answers_raise (err : Value) : Answers (raise err) := by
  intro session hs
  show (Co.fail ⟨session, false, []⟩).replies.length = 1
  simp [Co.fail, hs]

/-- A call that returns goes on where it was, and an error of it is an answer. -/
theorem answers_call {x : Except Value α} {f : α → Run Unit} (hf : ∀ a, x = .ok a → Answers (f a)) :
    Answers (call x >>= f) := by
  cases x with
  | ok a => exact hf a rfl
  | error err => exact answers_raise err

theorem answers_retpack (values : List Value) : Answers (retpack env values) := by
  by_cases hp : env.packs values
  · intro session hs
    have : (retpack env values).run.run ⟨session, false, []⟩ =
        (.ok (), ⟨session, true, [if env.fits values then .response values else .error]⟩) := by
      unfold retpack
      rw [hp]
      show (if session = 0 then _ else _ : Run Unit).run.run _ = _
      rw [if_neg hs]
      rfl
    unfold raw_dispatch_message
    rw [this]
    rfl
  · have : retpack env values = raise (.str "type not supported to serialize") := by
      unfold retpack
      rw [Bool.not_eq_true] at hp
      rw [hp]
      rfl
    rw [this]
    exact answers_raise _

/-- The reply of a command, whatever it does. -/
theorem answers_call_retpack (x : Except Value (List Value)) :
    Answers (do retpack env (← call x)) :=
  answers_call fun _ _ => answers_retpack _

/-! ## `MessageDispatch` -/

/-- The logger of `MessageDispatch.lua` raises what it is given as an error. -/
theorem log_error_raises (msg : String) :
    Logger.log env .error [.str msg] = .error (.str (env.line [.str msg])) := rfl

theorem dispatchMessage_answers (self : MessageDispatch) (source cmd : Value) (args : List Value) :
    Answers (self.dispatchMessage env source cmd args) := by
  unfold MessageDispatch.dispatchMessage
  cases index self.tb_self_msg cmd with
  | some func =>
    simp only
    split
    · exact answers_call_retpack _
    · exact answers_call_retpack _
  | none =>
    cases self.self_msg_callback with
    | some callback =>
      simp only
      split
      · exact answers_call_retpack _
      · exact answers_call_retpack _
    | none =>
      refine answers_call fun msg _ => ?_
      rw [log_error_raises]
      exact answers_raise _

/-! ## `dispatch_command` -/

variable {CMD : Commands} {REQUEST : Option Commands}

theorem dispatch_command_answers {cmd : Value} {f : Callback}
    (hf : index (commands env CMD REQUEST) cmd = some f) (source : Value) (args : List Value) :
    Answers (dispatch_command env CMD REQUEST source cmd args) := by
  unfold dispatch_command
  rw [hf]
  simp only
  split
  · exact answers_call_retpack _
  · split
    · exact answers_call_retpack _
    · exact answers_call_retpack _

theorem dispatch_command_unknown {cmd : Value} (hf : index (commands env CMD REQUEST) cmd = none)
    (source : Value) (args : List Value) (session : Int) :
    raw_dispatch_message (dispatch_command env CMD REQUEST source cmd args) session = [] := by
  unfold dispatch_command
  rw [hf]
  rfl

/-- The commands that are known: those of the table, and `Request` with a table of requests. -/
theorem index_commands (cmd : Value) :
    (index (commands env CMD REQUEST) cmd).isSome ↔
      (index CMD cmd).isSome ∨ REQUEST.isSome ∧ cmd.eqStr "Request" := by
  cases REQUEST with
  | none => simp [commands]
  | some R =>
    by_cases hc : cmd.eqStr "Request"
    · have hn : cmd.isNil = false := by
        cases cmd with
        | str s => rfl
        | _ => cases hc
      simp [index, commands, hc, hn]
    · simp [index, commands, hc]

/-- A call is answered once: by `dispatchMessage` always, and by what `dispatch_command` returns
just when it knows the command. -/
theorem one_reply (env : Env) (CMD : Commands) (REQUEST : Option Commands) (self : MessageDispatch)
    (session : Int) (hs : session ≠ 0) (source cmd : Value) (args : List Value) :
    ((raw_dispatch_message (dispatch_command env CMD REQUEST source cmd args) session).length = 1 ↔
      (index CMD cmd).isSome ∨ REQUEST.isSome ∧ cmd.eqStr "Request") ∧
    (raw_dispatch_message (self.dispatchMessage env source cmd args) session).length = 1 := by
  refine ⟨?_, dispatchMessage_answers self source cmd args session hs⟩
  rw [← @index_commands env CMD REQUEST cmd]
  cases hf : index (commands env CMD REQUEST) cmd with
  | none =>
    rw [dispatch_command_unknown hf]
    decide
  | some f =>
    rw [dispatch_command_answers hf source args session hs]
    simp

/-- A node whose loggers reach the other one, and a command that answers. -/
def sampleEnv : Env where
  send _ := .ok ()
  line _ := ""
  tostring _ := ""
  stack _ := ""
  packs _ := true
  fits _ := true

def sampleCommands : Commands := fun cmd =>
  if cmd.eqStr "query" then some fun _ => .ok [.num 7] else none

theorem one_reply_sample :
    (raw_dispatch_message (dispatch_command sampleEnv sampleCommands none .nil (.str "query") []) 1).length
        = 1 ∧
      (raw_dispatch_message (MessageDispatch.dispatchMessage sampleEnv ⟨none, sampleCommands⟩ .nil
        (.str "query") []) 1).length = 1 := by
  obtain ⟨h, h'⟩ := one_reply sampleEnv sampleCommands none ⟨none, sampleCommands⟩ 1 (by decide) .nil
    (.str "query") []
  exact ⟨h.mpr (.inl (by decide)), h'⟩

/-- A command that is not registered: the caller, which waits for session `1`, gets no reply. -/
theorem unknown_unanswered :
    raw_dispatch_message (dispatch_command sampleEnv sampleCommands none .nil (.str "quit") []) 1
      = [] := by
  rw [dispatch_command_unknown (by rfl)]

end SkynetHotfix.Dispatch
