import Mathlib.Logic.Function.Basic
import SkynetHotfix.Login.Agreed

/-!
# One login of a user at a time

`user_login` has a user just as long as `accept` is in `login_handler` for one of his connections,
which is then the only one (`Exclusive`). A step leaves both alone, or begins or ends such a call
(`Exclusive.begin`, `Exclusive.finish`); what the client sends does neither (`auth_ok`).
-/

namespace SkynetHotfix.Login

open Function (update)

variable {V : Type}

def Server.logging : Server V → Option V
  | .login _ uid _ => some uid
  | _ => none

/-- Of which user `login_handler` is called for a connection. -/
def World.logging (w : World V) (i : Nat) : Option V := (w.conns[i]?).bind (·.server.logging)

structure Exclusive (user_login : V → Bool) (logging : Nat → Option V) : Prop where
  locked : ∀ uid, user_login uid = true ↔ ∃ i, logging i = some uid
  unique : ∀ i j uid, logging i = some uid → logging j = some uid → i = j

variable {conf : Conf} {w : World V} {c c' : Conn V} {i : Nat} {uid : V}
  {user_login : V → Bool} {logging : Nat → Option V}

theorem logging_set (hi : w.conns[i]? = some c) (user_login : V → Bool) :
    World.logging ⟨user_login, w.conns.set i c'⟩ = update w.logging i c'.server.logging := by
  obtain ⟨hlt, -⟩ := List.getElem?_eq_some_iff.mp hi
  funext j
  by_cases hj : j = i
  · subst hj
    simp [World.logging, hlt]
  · simp [World.logging, Function.update_of_ne hj, List.getElem?_set_ne (Ne.symm hj)]

theorem logging_put (hi : w.conns[i]? = some c) (h : c'.server.logging = c.server.logging) :
    (w.put i c').logging = w.logging := by
  rw [World.put, logging_set hi, h]
  have hsame : w.logging i = c.server.logging := by simp [World.logging, hi]
  rw [← hsame, Function.update_eq_self]

theorem logging_eq (hi : w.conns[i]? = some c) : w.logging i = c.server.logging := by
  simp [World.logging, hi]

theorem run_bind_ok {α β : Type} {m : Talk α} {f : α → Talk β} {b : β} {out out' : Crypt.Text}
    (h : (m >>= f).run.run out = (.ok b, out')) :
    ∃ a mid, m.run.run out = (.ok a, mid) ∧ (f a).run.run mid = (.ok b, out') := by
  rw [ExceptT.run_bind, StateT.run_bind] at h
  generalize hm : m.run.run out = r at h
  obtain ⟨_ | a, mid⟩ := r
  · cases h
  · exact ⟨a, mid, rfl, h⟩

theorem run_pure_ok {α : Type} {a b : α} {out out' : Crypt.Text}
    (h : (pure a : Talk α).run.run out = (.ok b, out')) : b = a :=
  (Except.ok.inj (congrArg Prod.fst h)).symm

/-- Where `auth` goes on from a line. -/
theorem auth_ok {connected : Bool} {random : Random} {server server' : Server V} {line text : Crypt.Text}
    (hreads : server.reads = true)
    (h : (auth connected random server line).run.run [] = (.ok server', text)) :
    (∃ challenge secret, server = .handshake challenge ∧ server' = .response challenge secret) ∨
      (∃ challenge secret, server = .response challenge secret ∧ server' = .token secret) ∨
      ∃ token secret, server = .token secret ∧ server' = .auth token secret := by
  cases server with
  | handshake challenge =>
    obtain ⟨clientkey, out, -, h⟩ := run_bind_ok h
    dsimp only at h
    split at h
    · cases h
    obtain ⟨exchange, out, -, h⟩ := run_bind_ok h
    obtain ⟨⟨⟩, out, -, h⟩ := run_bind_ok h
    obtain ⟨secret, out, -, h⟩ := run_bind_ok h
    exact .inl ⟨challenge, secret, rfl, run_pure_ok h⟩
  | response challenge secret =>
    obtain ⟨hmac, out, -, h⟩ := run_bind_ok h
    obtain ⟨client, out, -, h⟩ := run_bind_ok h
    dsimp only at h
    split at h
    · obtain ⟨⟨⟩, out, -, h⟩ := run_bind_ok h
      cases h
    exact .inr (.inl ⟨challenge, secret, rfl, run_pure_ok h⟩)
  | token secret =>
    obtain ⟨text, out, -, h⟩ := run_bind_ok h
    obtain ⟨token, out, -, h⟩ := run_bind_ok h
    exact .inr (.inr ⟨token, secret, rfl, run_pure_ok h⟩)
  | _ => cases hreads

theorem logging_serverRead (c : Conn V) (hreads : c.server.reads = true) :
    c.serverRead.server.logging = none := by
  unfold Conn.serverRead
  split
  · split
    · generalize c.server = server at hreads
      cases server <;> first | rfl | cases hreads
    · rfl
  · rename_i line up hread
    generalize hr : (auth c.connected c.random c.server line).run.run [] = r
    obtain ⟨(_ | _) | server, text⟩ := r
    · rfl
    · rfl
    · obtain ⟨_, _, -, rfl⟩ | ⟨_, _, -, rfl⟩ | ⟨_, _, -, rfl⟩ := auth_ok hreads hr <;> rfl

theorem logging_open (c : Conn V) : c.open.server.logging = none := by
  unfold Conn.open
  split <;> rfl

theorem logging_authorize (c : Conn V) (result : Option (V × V)) :
    (c.authorize result).server.logging = c.server.logging := by
  unfold Conn.authorize
  split
  · rename_i token secret hserver
    rw [hserver]
    cases result <;> rfl
  · rfl

theorem logging_deliverUp (c : Conn V) (n : Nat) :
    (c.deliverUp n).server.logging = c.server.logging := by
  unfold Conn.deliverUp
  split
  · rfl
  dsimp only
  split
  · rename_i hlong
    generalize c.server = server at hlong
    cases server <;> first | rfl | cases hlong.1
  · rfl

theorem server_clientRead (c : Conn V) : c.clientRead.server = c.server := by
  unfold Conn.clientRead
  split <;> rfl

variable [DecidableEq V]

theorem Exclusive.begin (h : Exclusive user_login logging) (hfree : user_login uid = false)
    (hi : logging i = none) :
    Exclusive (update user_login uid true) (update logging i (some uid)) := by
  have hlocked := h.locked
  have hunique := h.unique
  constructor
  · intro uid'
    simp only [Function.update_apply]
    by_cases huid : uid' = uid
    · simp only [huid, if_true, true_iff]
      exact ⟨i, by simp⟩
    · grind
  · intro j j' uid' hj hj'
    simp only [Function.update_apply] at hj hj'
    grind

theorem Exclusive.finish (h : Exclusive user_login logging) (hi : logging i = some uid) :
    Exclusive (update user_login uid false) (update logging i none) := by
  have hlocked := h.locked
  have hunique := h.unique
  constructor
  · intro uid'
    simp only [Function.update_apply]
    grind
  · intro j j' uid' hj hj'
    simp only [Function.update_apply] at hj hj'
    grind

def World.Exclusive (w : World V) : Prop := Login.Exclusive w.user_login w.logging

omit [DecidableEq V] in
theorem World.Exclusive.put (h : w.Exclusive) (hi : w.conns[i]? = some c)
    (hc : c'.server.logging = c.server.logging) : (w.put i c').Exclusive := by
  rw [World.Exclusive, logging_put hi hc]
  exact h

theorem World.Exclusive.serve (h : w.Exclusive) (hmulti : conf.multilogin = false)
    (hi : w.conns[i]? = some c) : (w.serve conf i c).Exclusive := by
  unfold World.serve
  split <;> rename_i hserver
  · exact h.put hi (by rw [logging_open, hserver]; rfl)
  · exact h.put hi (by rw [logging_serverRead c (by simp [hserver, Server.reads]), hserver]; rfl)
  · exact h.put hi (by rw [logging_serverRead c (by simp [hserver, Server.reads]), hserver]; rfl)
  · exact h.put hi (by rw [logging_serverRead c (by simp [hserver, Server.reads]), hserver]; rfl)
  · exact h.put hi (by simp [hserver, Server.logging, Conn.close])
  · rename_i server uid secret
    rw [if_neg (by simp [hmulti])]
    split
    · exact h.put hi (by simp [hserver, Server.logging, Conn.close])
    · rename_i hfree
      have hnone : w.logging i = none := by rw [logging_eq hi, hserver]; rfl
      rw [World.Exclusive, logging_set hi]
      exact Login.Exclusive.begin h (by simpa using hfree) hnone
  · exact h
  · exact h
  · exact h

theorem World.Exclusive.finish (h : w.Exclusive) (hi : w.conns[i]? = some c)
    (err : Option Crypt.Text) : (w.finish i c err).Exclusive := by
  unfold World.finish
  split
  · rename_i server uid secret hserver
    have hsome : w.logging i = some uid := by rw [logging_eq hi, hserver]; rfl
    rw [World.Exclusive, logging_set hi]
    exact Login.Exclusive.finish h hsome
  · exact h

theorem World.Exclusive.step {w' : World V} (h : w.Exclusive) (hmulti : conf.multilogin = false)
    (hi : w.conns[i]? = some c) (hstep : Step conf w i c w') : w'.Exclusive := by
  cases hstep with
  | serve => exact h.serve hmulti hi
  | read _ => exact h.put hi (by rw [server_clientRead])
  | up n => exact h.put hi (logging_deliverUp c n)
  | down n => exact h.put hi rfl
  | send _ text => exact h.put hi rfl
  | hangup _ n => exact h.put hi rfl
  | authorize result => exact h.put hi (logging_authorize c result)
  | finish err => exact h.finish hi err

theorem World.Exclusive.exec (h : w.Exclusive) (hmulti : conf.multilogin = false) (e : Event V) :
    (w.exec conf e).Exclusive := by
  obtain ⟨random, client, rfl⟩ | hsame | ⟨i, c, hi, hstep⟩ := exec_cases conf w e
  · have hlogging : World.logging (w.exec conf (.connect random client)) = w.logging := by
      funext j
      show ((w.conns ++ [.new random client])[j]?).bind (·.server.logging) = w.logging j
      rw [World.logging, List.getElem?_append]
      split
      · rfl
      · rename_i hj
        rw [List.getElem?_eq_none (Nat.not_lt.mp hj)]
        cases j - w.conns.length <;> rfl
    rw [World.Exclusive, hlogging]
    exact h
  · rw [hsame]
    exact h
  · exact h.step hmulti hi hstep

theorem exclusive (h : Reached conf w) (hmulti : conf.multilogin = false) : w.Exclusive := by
  refine h.invariant (I := World.Exclusive) ⟨fun uid => ?_, fun i j uid hi => ?_⟩
    fun w e h _ => h.exec hmulti e
  · simp [World.empty, World.logging]
  · simp [World.empty, World.logging] at hi

omit [DecidableEq V] in
theorem logging_iff : w.logging i = some uid ↔
    ∃ (c : Conn V) (server : V) (secret : Crypt.Text),
      w.conns[i]? = some c ∧ c.server = .login server uid secret := by
  constructor
  · intro h
    obtain ⟨c, hi, hc⟩ := Option.bind_eq_some_iff.mp h
    cases hserver : c.server <;> rw [hserver] at hc <;> cases hc
    exact ⟨c, _, _, hi, hserver⟩
  · rintro ⟨c, server, secret, hi, hserver⟩
    rw [logging_eq hi, hserver]
    rfl

/-- Unless `multilogin` is set, whatever the order of the steps, and however clients behave:
`login_handler` is called for one connection of a user at a time, and `user_login` has the user just
as long as it is. -/
theorem one_login (h : Reached conf w) (hmulti : conf.multilogin = false) (uid : V) :
    (w.user_login uid = true ↔ ∃ (i : Nat) (c : Conn V) (server : V) (secret : Crypt.Text),
        w.conns[i]? = some c ∧ c.server = .login server uid secret) ∧
      ∀ (i j : Nat) (c c' : Conn V) (server server' : V) (secret secret' : Crypt.Text),
        w.conns[i]? = some c → w.conns[j]? = some c' → c.server = .login server uid secret →
          c'.server = .login server' uid secret' → i = j := by
  have hex := exclusive h hmulti
  constructor
  · rw [hex.locked uid]
    simp only [logging_iff]
  · intro i j c c' server server' secret secret' hi hj hc hc'
    exact hex.unique i j uid (logging_iff.mpr ⟨c, server, secret, hi, hc⟩)
      (logging_iff.mpr ⟨c', server', secret', hj, hc'⟩)

theorem one_login_sample :
    (sampleWorld.user_login 1 = true ↔ ∃ (i : Nat) (c : Conn Nat) (server : Nat)
        (secret : Crypt.Text), sampleWorld.conns[i]? = some c ∧ c.server = .login server 1 secret) ∧
      ∀ (i j : Nat) (c c' : Conn Nat) (server server' : Nat) (secret secret' : Crypt.Text),
        sampleWorld.conns[i]? = some c → sampleWorld.conns[j]? = some c' →
          c.server = .login server 1 secret → c'.server = .login server' 1 secret' → i = j :=
  one_login sample_reached rfl 1

end SkynetHotfix.Login
