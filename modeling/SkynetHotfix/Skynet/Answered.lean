import Mathlib.Data.Finset.Card
import SkynetHotfix.Skynet.Coroutines

/-!
# No request is answered twice

Who may still answer a request is the coroutine that serves it, or one function `response` that it
made. Each answer uses one of them up, so there are no more answers to a source's session than it
has sent requests with this session (`answered_once`).
-/

namespace SkynetHotfix.Skynet.Coroutines

open Function (update update_apply)

theorem error_ne : PTYPE_ERROR ≠ PTYPE_RESPONSE := by decide

/-- A function `response` that may still answer this request. -/
def Response.may (a session : Nat) (r : Response) : Bool :=
  r.co_session = session ∧ r.co_address = a ∧ r.f = .pack

namespace Serving

variable {v v' : Serving} {a session n : Nat}

/-- The coroutine `c` serves this request and has not answered it. -/
def Unanswered (v : Serving) (a session c : Nat) : Prop :=
  v.session_coroutine_id c = some session ∧ v.session_coroutine_address c = some a ∧
    v.session_response c = false

instance : DecidablePred (v.Unanswered a session) := fun _ => inferInstanceAs (Decidable (_ ∧ _))

/-- Of the first `n` coroutines, those that may still answer. -/
def serving (v : Serving) (a session n : Nat) : Finset Nat :=
  (Finset.range n).filter (v.Unanswered a session)

def answers (v : Serving) (a session : Nat) : Nat :=
  v.sent.count ⟨a, PTYPE_RESPONSE, session⟩

/-- The answers there are and may still be, by the first `n` coroutines and by functions. -/
def total (v : Serving) (a session n : Nat) : Nat :=
  v.answers a session + (v.serving a session n).card + v.responses.countP (Response.may a session)

structure Kept (v : Serving) : Prop where
  once : ∀ a session n, v.total a session n ≤ v.requests.count (a, session)
  never : ∀ a, v.answers a 0 = 0

theorem mem_serving {c : Nat} : c ∈ v.serving a session n ↔ c < n ∧ v.Unanswered a session c := by
  rw [serving, Finset.mem_filter, Finset.mem_range]

theorem card_mono (h : ∀ c, v'.Unanswered a session c → v.Unanswered a session c) :
    (v'.serving a session n).card ≤ (v.serving a session n).card :=
  Finset.card_le_card fun c hc => by
    rw [mem_serving] at hc ⊢
    exact ⟨hc.1, h c hc.2⟩

/-- One more coroutine may answer. -/
theorem card_add_one {c : Nat}
    (h : ∀ x, x ≠ c → v'.Unanswered a session x → v.Unanswered a session x) :
    (v'.serving a session n).card ≤ (v.serving a session n).card + 1 := by
  refine Nat.le_trans (Finset.card_le_card (t := insert c (v.serving a session n)) fun x hx => ?_)
    (Finset.card_insert_le _ _)
  rw [Finset.mem_insert, mem_serving]
  rw [mem_serving] at hx
  by_cases hxc : x = c
  · exact .inl hxc
  · exact .inr ⟨hx.1, h x hxc hx.2⟩

/-- A coroutine that might answer may not any more. -/
theorem card_lt {c : Nat} (hc : v.Unanswered a session c) (hc' : ¬ v'.Unanswered a session c)
    (h : ∀ x, v'.Unanswered a session x → v.Unanswered a session x) :
    (v'.serving a session n).card < (v.serving a session (max n (c + 1))).card := by
  apply Finset.card_lt_card
  rw [Finset.ssubset_iff]
  refine ⟨c, fun hmem => hc' (mem_serving.mp hmem).2, fun x hx => ?_⟩
  rw [mem_serving]
  rcases Finset.mem_insert.mp hx with rfl | hx
  · exact ⟨by omega, hc⟩
  · rw [mem_serving] at hx
    exact ⟨by omega, h x hx.2⟩

theorem unanswered_responded {c x : Nat} (h : (v.responded c).Unanswered a session x) :
    v.Unanswered a session x ∧ x ≠ c := by
  have hresponse : update v.session_response c true x = false := h.2.2
  rw [update_apply] at hresponse
  split at hresponse
  · cases hresponse
  next hne => exact ⟨⟨h.1, h.2.1, hresponse⟩, hne⟩

theorem answers_send (accepted : Bool) (p : Packet) :
    (v.send accepted p).answers a session =
      v.answers a session + if accepted ∧ p = ⟨a, PTYPE_RESPONSE, session⟩ then 1 else 0 := by
  cases accepted with
  | false => simp [send]
  | true => simp [send, answers, List.count_singleton]

/-- An error is no answer. -/
theorem answers_error (accepted : Bool) (address session' : Nat) :
    (v.send accepted ⟨address, PTYPE_ERROR, session'⟩).answers a session =
      v.answers a session := by
  rw [answers_send, if_neg fun h => error_ne (congrArg Packet.type h.2), Nat.add_zero]

theorem answers_reply (accepted : Bool) (address session' : Nat) :
    (v.reply accepted address session').answers a session =
      v.answers a session + if accepted ∧ address = a ∧ session' = session then 1 else 0 := by
  cases accepted with
  | false => simp [reply, answers_error]
  | true => simp [reply, answers_send]

/-- What a function `response` sends. -/
theorem sends (v : Serving) (r : Response) (ok accepted : Bool) : ∃ answered : Bool,
    (answered → r.co_session ≠ 0) ∧
    (∀ a session, (v.sentBy r ok accepted).answers a session = v.answers a session +
      if answered ∧ r.co_address = a ∧ r.co_session = session then 1 else 0) ∧
    (v.sentBy r ok accepted).responses = v.responses ∧
    (∀ a session c, (v.sentBy r ok accepted).Unanswered a session c ↔ v.Unanswered a session c) ∧
    (v.sentBy r ok accepted).requests = v.requests := by
  rw [sentBy]
  split
  next hcond =>
    cases ok with
    | true =>
      refine ⟨accepted, fun _ => hcond.1, fun a session => answers_reply .., ?_⟩
      cases accepted <;> exact ⟨rfl, fun _ _ _ => Iff.rfl, rfl⟩
    | false =>
      refine ⟨false, fun hfalse => absurd hfalse Bool.false_ne_true, fun a session => ?_, ?_⟩
      · simp [answers_error]
      · cases accepted <;> exact ⟨rfl, fun _ _ _ => Iff.rfl, rfl⟩
  next =>
    refine ⟨false, fun hfalse => absurd hfalse Bool.false_ne_true, fun a session => ?_, rfl,
      fun _ _ _ => Iff.rfl, rfl⟩
    simp

namespace Kept

/-- The total does not grow. -/
theorem step (h : Kept v) (htotal : ∀ a session n, ∃ m, v'.total a session n ≤ v.total a session m)
    (hrequests : v'.requests = v.requests) (hnever : ∀ a, v'.answers a 0 = v.answers a 0) :
    Kept v' where
  once a session n := by
    obtain ⟨m, hm⟩ := htotal a session n
    rw [hrequests]
    exact Nat.le_trans hm (h.once a session m)
  never a := (hnever a).trans (h.never a)

/-- Nothing is answered, and nobody gets to answer. -/
theorem mono (h : Kept v) (hsent : ∀ a session, v'.answers a session = v.answers a session)
    (hid : ∀ a session c, v'.Unanswered a session c → v.Unanswered a session c)
    (hresponses : ∀ a session, v'.responses.countP (Response.may a session) ≤
      v.responses.countP (Response.may a session))
    (hrequests : v'.requests = v.requests) : Kept v' := by
  refine h.step (fun a session n => ⟨n, ?_⟩) hrequests fun a => hsent a 0
  have hcard := card_mono (n := n) (hid a session)
  have hr := hresponses a session
  rw [total, total, hsent]
  omega

/-- A packet that is none to answer. -/
theorem send (h : Kept v) (accepted : Bool) {p : Packet} (hp : p.type ≠ PTYPE_RESPONSE) :
    Kept (v.send accepted p) := by
  refine h.mono (fun a session => ?_) (fun a session c => ?_) (fun a session => ?_) ?_
  · rw [answers_send, if_neg]
    · rfl
    · rintro ⟨-, rfl⟩
      exact hp rfl
  all_goals
    rw [Serving.send]
    split
  · exact id
  · exact id
  · exact Nat.le_refl _
  · exact Nat.le_refl _
  · rfl
  · rfl

theorem dispatch (h : Kept v) (c σ source : Nat) : Kept (v.dispatch c σ source) where
  once a session n := by
    have hone := h.once a session n
    have hother : ∀ x, x ≠ c → (v.dispatch c σ source).Unanswered a session x →
        v.Unanswered a session x := by
      intro x hx hun
      simpa [Unanswered, Serving.dispatch, update_apply, hx] using hun
    show v.answers a session + _ + _ ≤ (v.requests ++ [(source, σ)]).count (a, session)
    rw [List.count_append, List.count_singleton]
    rw [total] at hone
    by_cases heq : (source, σ) = (a, session)
    · have hcard := card_add_one (n := n) hother
      rw [if_pos (by simpa using heq)]
      show _ + _ + v.responses.countP _ ≤ _
      omega
    · have hcard : ((v.dispatch c σ source).serving a session n).card ≤
          (v.serving a session n).card := by
        refine card_mono fun x hun => ?_
        by_cases hx : x = c
        · refine absurd ?_ heq
          subst hx
          simp [Unanswered, Serving.dispatch] at hun
          rw [hun.1, hun.2.1]
        · exact hother x hx hun
      show _ + _ + v.responses.countP _ ≤ _
      omega
  never := h.never

/-- A coroutine that answers its request. -/
theorem reply (h : Kept v) {c σ address : Nat} (hσ : σ ≠ 0)
    (hc : v.Unanswered address σ c) (accepted : Bool) :
    Kept ((v.responded c).reply accepted address σ) := by
  have hun : ∀ a session x, ((v.responded c).reply accepted address σ).Unanswered a session x →
      v.Unanswered a session x ∧ x ≠ c := by
    intro a session x hx
    refine unanswered_responded ?_
    cases accepted <;> exact hx
  have hresponses : ((v.responded c).reply accepted address σ).responses = v.responses := by
    cases accepted <;> rfl
  have hanswers : ∀ a session, ((v.responded c).reply accepted address σ).answers a session =
      v.answers a session + if accepted ∧ address = a ∧ σ = session then 1 else 0 :=
    fun a session => answers_reply ..
  refine h.step (fun a session n => ?_) ?_ fun a => ?_
  · rw [total, hresponses, hanswers]
    by_cases heq : accepted ∧ address = a ∧ σ = session
    · obtain ⟨-, rfl, rfl⟩ := heq
      have hlt := card_lt (n := n) hc (fun hx => (hun address σ c hx).2 rfl)
        fun x hx => (hun address σ x hx).1
      refine ⟨max n (c + 1), ?_⟩
      rw [total]
      split <;> omega
    · have hle := card_mono (n := n) fun x hx => (hun a session x hx).1
      refine ⟨n, ?_⟩
      rw [if_neg heq, total]
      omega
  · cases accepted <;> rfl
  · rw [hanswers, if_neg fun heq => hσ heq.2.2, Nat.add_zero]

/-- Less is kept in the tables of the coroutines. -/
theorem fewer (h : Kept v) (hsent : v'.sent = v.sent) (hresponses : v'.responses = v.responses)
    (hrequests : v'.requests = v.requests)
    (hid : ∀ a session c, v'.Unanswered a session c → v.Unanswered a session c) : Kept v' := by
  refine h.mono (fun a session => ?_) hid (fun a session => ?_) hrequests
  · rw [answers, answers, hsent]
  · rw [hresponses]

theorem responded (h : Kept v) (c : Nat) : Kept (v.responded c) :=
  h.fewer rfl rfl rfl fun _ _ _ hx => (unanswered_responded hx).1

theorem RETURN (h : Kept v) {c : Nat} {accepted : Bool} (hv : v.RETURN c accepted = some v') :
    Kept v' := by
  rw [Serving.RETURN] at hv
  split at hv
  next => exact Option.some.inj hv ▸ h
  next σ hσ hid =>
    split at hv
    · cases hv
    next hresponse =>
    dsimp only at hv
    split at hv
    next address haddress =>
      split at hv
      · exact Option.some.inj hv ▸ h.responded c
      · refine Option.some.inj hv ▸ h.reply (fun h0 => hσ ?_) ⟨hid, haddress, ?_⟩ accepted
        · rw [h0]
        · exact eq_false_of_ne_true hresponse
    next => cases hv
  next => cases hv

theorem RESPONSE (h : Kept v) {c : Nat} (hv : v.RESPONSE c = some v') : Kept v' := by
  rw [Serving.RESPONSE] at hv
  split at hv
  next σ address hid haddress =>
    split at hv
    · cases hv
    next hnot =>
    obtain ⟨hresponse, -⟩ := not_or.mp hnot
    obtain rfl := Option.some.inj hv
    have hc : v.Unanswered address σ c := ⟨hid, haddress, eq_false_of_ne_true hresponse⟩
    refine h.step (fun a session n => ?_) rfl fun _ => rfl
    have hun := fun x (hx : (v.responded c).Unanswered a session x) => unanswered_responded hx
    show ∃ m, v.answers a session + ((v.responded c).serving a session n).card +
      List.countP (Response.may a session) (v.responses ++ [⟨σ, address, .pack, true⟩]) ≤
        v.total a session m
    rw [List.countP_append, List.countP_singleton]
    by_cases heq : σ = session ∧ address = a
    · obtain ⟨rfl, rfl⟩ := heq
      have hlt := card_lt (n := n) hc (fun hx => (hun c hx).2 rfl) fun x hx => (hun x hx).1
      refine ⟨max n (c + 1), ?_⟩
      rw [total]
      split <;> omega
    · have hle := card_mono (n := n) fun x hx => (hun x hx).1
      refine ⟨n, ?_⟩
      rw [if_neg (by simpa [Response.may] using fun h1 h2 => heq ⟨h1, h2⟩), total]
      omega
  next => cases hv

/-- A function that is used up answers no more. -/
theorem used (h : Kept v) {i : Nat} {r : Response} (r' : Response)
    (hr : v.responses[i]? = some r) (hr' : r'.f ≠ .pack) (hresponses : v'.responses = v.responses.set i r')
    (hid : ∀ a session c, v'.Unanswered a session c → v.Unanswered a session c)
    (hrequests : v'.requests = v.requests) (answered : Bool)
    (hf : answered → r.f = .pack ∧ r.co_session ≠ 0)
    (hanswers : ∀ a session, v'.answers a session = v.answers a session +
      if answered ∧ r.co_address = a ∧ r.co_session = session then 1 else 0) : Kept v' := by
  obtain ⟨hi, rfl⟩ := List.getElem?_eq_some_iff.mp hr
  refine h.step (fun a session n => ⟨n, ?_⟩) hrequests fun a => ?_
  · have hcard := card_mono (n := n) (hid a session)
    have hmay : Response.may a session r' = false := by simp [Response.may, hr']
    have hset := List.countP_set (p := Response.may a session) (a := r') hi
    rw [hmay, if_neg Bool.false_ne_true] at hset
    rw [total, total, hresponses, hset, hanswers]
    by_cases heq : answered ∧ v.responses[i].co_address = a ∧ v.responses[i].co_session = session
    · have hmem : Response.may a session v.responses[i] = true := by
        simp [Response.may, heq.2.1, heq.2.2, (hf heq.1).1]
      have hpos : 0 < v.responses.countP (Response.may a session) :=
        List.countP_pos_iff.mpr ⟨_, List.getElem_mem hi, hmem⟩
      rw [if_pos heq, if_pos hmem]
      omega
    · rw [if_neg heq]
      omega
  · rw [hanswers, if_neg fun heq => (hf heq.1).2 heq.2.2, Nat.add_zero]

theorem respond (h : Kept v) (i : Nat) (ok accepted : Bool) : Kept (v.respond i ok accepted) := by
  rw [Serving.respond]
  split
  next r hr =>
    split
    next hf =>
      obtain ⟨answered, hok, hanswers, hresponses, hid, hrequests⟩ := v.sends r ok accepted
      generalize v.sentBy r ok accepted = v₁ at hanswers hresponses hid hrequests
      refine h.used { r with f := .nil, unresponse := false } hr (by simp) ?_
        (fun a session c => ?_) hrequests answered (fun hans => ⟨hf, hok hans⟩) hanswers
      · rw [← hresponses]
        rfl
      · rw [← hid a session c]
        exact id
    next hf =>
      refine h.used { r with f := .nil } hr (by simp) rfl (fun _ _ _ => id) rfl false
        (fun hfalse => absurd hfalse Bool.false_ne_true) fun a session => ?_
      rw [if_neg fun heq => Bool.false_ne_true heq.1]
      rfl
    next => exact h
  next => exact h

theorem test (h : Kept v) (i : Nat) : Kept (v.test i) := by
  rw [Serving.test]
  split
  next r hr =>
    split
    · refine h.used { r with f := .no, unresponse := false } hr (by simp) rfl
        (fun _ _ _ => id) rfl false (fun hfalse => absurd hfalse Bool.false_ne_true)
        fun a session => ?_
      rw [if_neg fun heq => Bool.false_ne_true heq.1]
      rfl
    · exact h
  next => exact h

theorem clear (h : Kept v) (c : Nat) : Kept (v.clear c) := by
  refine h.fewer rfl rfl rfl fun a session x hx => ?_
  have hid : update v.session_coroutine_id c none x = some session := hx.1
  have haddress : update v.session_coroutine_address c none x = some a := hx.2.1
  rw [update_apply] at hid haddress
  split at hid
  · cases hid
  next hne =>
    rw [if_neg hne] at haddress
    exact ⟨hid, haddress, hx.2.2⟩

theorem EXIT (h : Kept v) (c : Nat) : Kept (v.EXIT c) := by
  have hk : ∀ {v : Serving}, Kept v →
      Kept { v.clear c with session_response := update v.session_response c false } := by
    intro v h
    refine (h.clear c).fewer rfl rfl rfl fun a session x hx => ⟨hx.1, hx.2.1, ?_⟩
    have hid : update v.session_coroutine_id c none x = some session := hx.1
    have hresponse : update v.session_response c false x = false := hx.2.2
    rw [update_apply] at hid hresponse
    split at hid
    · cases hid
    next hne =>
      rw [if_neg hne] at hresponse
      exact hresponse
  rw [Serving.EXIT]
  split
  next address _ =>
    exact hk (v := v.release_watching address) (h.fewer rfl rfl rfl fun _ _ _ => id)
  next => exact hk h

theorem fail (h : Kept v) (c : Nat) : Kept (v.fail c) := by
  rw [Serving.fail]
  split
  · exact h.clear c
  · exact (h.send true error_ne).clear c
  · exact h

theorem report (h : Kept v) (n : Nat) : Kept (v.report n) := by
  induction n with
  | zero => exact h
  | succ n ih =>
    rw [Serving.report]
    split
    · split
      · exact ih.send true error_ne
      · exact ih
    · exact ih

theorem refuse (h : Kept v) (n : Nat) : Kept (v.refuse n) := by
  induction n with
  | zero => exact h
  | succ n ih =>
    rw [Serving.refuse]
    split
    · split
      · exact ih.respond n false true
      · exact ih
    · exact ih

theorem exit (h : Kept v) (made : Nat) (callees : List Nat) : Kept (v.exit made callees) := by
  have hk := (h.report made).refuse (v.report made).responses.length
  refine hk.mono (fun a session => ?_) (fun _ _ _ => id) (fun _ _ => Nat.le_refl _) rfl
  show (_ ++ callees.map _).count _ = _
  have hnone : List.count (⟨a, PTYPE_RESPONSE, session⟩ : Packet)
      (callees.map (⟨·, PTYPE_ERROR, 0⟩)) = 0 := by
    refine List.count_eq_zero.mpr fun hmem => ?_
    obtain ⟨x, -, hx⟩ := List.mem_map.mp hmem
    exact error_ne (congrArg Packet.type hx)
  rw [List.count_append, hnone]
  rfl

theorem error_dispatch (h : Kept v) (error_session error_source : Nat) :
    Kept (v.error_dispatch error_session error_source) := by
  rw [Serving.error_dispatch]
  split
  · exact h.fewer rfl rfl rfl fun _ _ _ => id
  · exact h

end Kept

end Serving

/-! ## Every step -/

open Serving (Kept)

variable {s : Service}

theorem served_message (h : Kept s.serving) (m : Message) (pick : Nat) :
    Kept (s.raw_dispatch_message m pick).serving := by
  rw [Service.raw_dispatch_message]
  split
  · split <;> exact h
  split
  · split
    · exact h.send true error_ne
    · exact h
  have hk := h.dispatch (s.threads.co_create pick).1 m.session m.source
  dsimp only
  split
  · exact hk
  split
  · exact (hk.error_dispatch m.session m.source).EXIT _
  · exact hk

theorem served_go (h : Kept s.serving) (pick : Nat) : Kept (s.go pick).serving := by
  rw [Service.go]
  split
  · exact h
  · exact h
  · dsimp only
    split <;> exact h
  · split
    · exact h
    · split <;> exact h

theorem served_act (h : Kept s.serving) (c : Nat) (a : Act) : Kept (s.act c a).serving := by
  cases a with
  | ret accepted =>
    rw [Service.act]
    split
    next v hv => exact h.RETURN hv
    next => exact h.responded c
  | response =>
    rw [Service.act]
    split
    next v hv => exact h.RESPONSE hv
    next => exact h
  | respond i ok accepted => exact h.respond i ok accepted
  | test i => exact h.test i
  | exit => exact h.exit _ _
  | term service => exact h.error_dispatch 0 service
  | finish => exact h.EXIT c
  | error => exact h.fail c
  | yield debug =>
    rw [Service.act]
    split <;> exact h
  | genid | timeout _ | fork _ | wakeup _ | call _ | sleep | wait _ => exact h

theorem served_exec (h : Kept s.serving) (op : Op) : Kept (exec s op).serving := by
  cases op with
  | message m pick =>
    rw [exec]
    split
    · have hk : Kept { s with todo := [.fork] : Service }.serving := h
      exact served_message hk m pick
    · exact h
  | go pick =>
    rw [exec]
    split
    · exact served_go h pick
    · exact h
  | act a =>
    rw [exec]
    split
    next c _ => exact served_act h c a
    next => exact h
  | collect i => exact h

theorem served_new : Kept Serving.new where
  once a session n := by
    have hserving : Serving.new.serving a session n = ∅ :=
      Finset.filter_false_of_mem fun c _ hc => (Option.some_ne_none session).symm hc.1
    rw [Serving.total, hserving]
    exact Nat.le_refl _
  never _ := rfl

theorem Reached.served (h : Reached s) : Kept s.serving :=
  h.invariant (I := fun s => Kept s.serving) served_new fun _ op hs _ => served_exec hs op

/-- A request is answered once at most: there are no more answers to a source's session than it has
sent requests with this session; and nothing is answered that is sent without a session. -/
theorem answered_once (h : Reached s) (a session : Nat) :
    s.serving.sent.count ⟨a, PTYPE_RESPONSE, session⟩ ≤ s.serving.requests.count (a, session) ∧
      s.serving.sent.count ⟨a, PTYPE_RESPONSE, 0⟩ = 0 := by
  have hk := h.served
  have honce := hk.once a session 0
  rw [Serving.total, Serving.answers] at honce
  exact ⟨by omega, hk.never a⟩

/-- A request is answered by a function, and its coroutine fails to answer it once more. -/
def sampleRequest : List Op :=
  [.message ⟨PTYPE_RESPONSE, 1, 0, true, true⟩ 0, .act .finish, .go 0, .go 0, .go 0,
    .message ⟨10, 5, 7, true, true⟩ 0, .act .response, .act (.respond 0 true true),
    .act (.respond 0 true true), .act (.ret true)]

theorem answered_once_sample :
    (sampleRequest.foldl exec Service.start).serving.sent = [⟨7, PTYPE_RESPONSE, 5⟩] ∧
      (sampleRequest.foldl exec Service.start).serving.sent.count ⟨7, PTYPE_RESPONSE, 5⟩ ≤
        (sampleRequest.foldl exec Service.start).serving.requests.count (7, 5) := by
  have hallowed : Machine.Allowed exec (fun _ _ => True) Service.start sampleRequest := by
    repeat' constructor
  exact ⟨rfl, (answered_once (Machine.Reach.init.run sampleRequest hallowed) 7 5).1⟩

end SkynetHotfix.Skynet.Coroutines
