import Mathlib.Data.Prod.Lex
import SkynetHotfix.Login.Exclusive
import SkynetHotfix.Login.Progress

/-!
# Every login gets a reply

Each step of a connection leaves less of it: a party is further in the protocol, or fewer bytes are
in flight (`Conn.left`, `next_exec`). As some turn is always possible (`exists_turn`), the client
reads its last line in every run that passes over no turn for ever (`replied`).
-/

namespace SkynetHotfix.Login

open Crypt

section Connections

variable {V : Type} {conf : Conf} {w : World V} {c c' : Conn V} {i j : Nat}

def Server.left : Server V → Nat
  | .start => 8
  | .handshake _ => 7
  | .response _ _ => 6
  | .token _ => 5
  | .auth _ _ => 4
  | .returned _ _ _ => 3
  | .refused | .login _ _ _ => 1
  | .closed => 0

def Client.left : Client → Nat
  | .challenge _ => 3
  | .exchange _ _ _ => 2
  | .result _ _ => 1
  | .stranger | .done _ _ _ _ | .failed _ _ => 0

theorem Server.left_of_reads {server : Server V} (h : server.reads = true) : 1 < server.left := by
  cases server with
  | handshake | response | token => simp [left]
  | _ => cases h

theorem Client.left_of_reads {client : Client} (h : client.reads = true) : 0 < client.left := by
  cases client with
  | challenge | exchange | result => simp [left]
  | _ => cases h

/-- What a step takes from: the way of the two parties, and then the bytes in flight. -/
def Conn.left (c : Conn V) : Nat ×ₗ Nat :=
  toLex (c.server.left + c.client.left, c.up.flight.length + c.down.flight.length)

theorem left_lt_of_parties
    (h : c'.server.left + c'.client.left < c.server.left + c.client.left) : c'.left < c.left :=
  Prod.Lex.toLex_lt_toLex.mpr (.inl h)

theorem left_lt_of_flight (hs : c'.server = c.server) (hc : c'.client = c.client)
    (h : c'.up.flight.length + c'.down.flight.length <
      c.up.flight.length + c.down.flight.length) : c'.left < c.left :=
  Prod.Lex.toLex_lt_toLex.mpr (.inr ⟨by rw [hs, hc], h⟩)

/-- What a step makes of a connection whose client is no stranger. -/
structure Conn.Next (c c' : Conn V) : Prop where
  less : c' = c ∨ c'.left < c.left
  token : c'.client.token = c.client.token

theorem Conn.Next.refl (c : Conn V) : c.Next c := ⟨.inl rfl, rfl⟩

/-- The server goes on. -/
theorem Conn.Next.of_server (hs : c'.server.left < c.server.left) (hc : c'.client = c.client) :
    c.Next c' := by
  refine ⟨.inr (left_lt_of_parties ?_), by rw [hc]⟩
  rw [hc]
  omega

/-- Where the client goes on from a line. -/
theorem clientStep_ok {random : Random} {client client' : Client} {line text : Text}
    (hreads : client.reads = true)
    (h : (clientStep random client line).run.run [] = (.ok client', text)) :
    client'.left < client.left ∧ client'.token = client.token := by
  cases client with
  | challenge token =>
    obtain ⟨challenge, out, -, h⟩ := run_bind_ok h
    obtain ⟨exchange, out, -, h⟩ := run_bind_ok h
    obtain ⟨⟨⟩, out, -, h⟩ := run_bind_ok h
    rw [run_pure_ok h]
    exact ⟨by simp [Client.left], rfl⟩
  | exchange challenge clientkey token =>
    obtain ⟨line, out, -, h⟩ := run_bind_ok h
    obtain ⟨secret, out, -, h⟩ := run_bind_ok h
    obtain ⟨hmac, out, -, h⟩ := run_bind_ok h
    obtain ⟨⟨⟩, out, -, h⟩ := run_bind_ok h
    obtain ⟨etoken, out, -, h⟩ := run_bind_ok h
    obtain ⟨⟨⟩, out, -, h⟩ := run_bind_ok h
    rw [run_pure_ok h]
    exact ⟨by simp [Client.left], rfl⟩
  | result secret token =>
    simp only [clientStep] at h
    split at h
    · cases h
    obtain ⟨subid, out, -, h⟩ := run_bind_ok h
    rw [run_pure_ok h]
    exact ⟨by simp [Client.left], rfl⟩
  | _ => cases hreads

theorem next_serverRead (c : Conn V) (hreads : c.server.reads = true) :
    c.Next c.serverRead := by
  have hleft := Server.left_of_reads hreads
  cases hread : c.up.readline newline with
  | none =>
    simp only [Conn.serverRead, hread]
    split
    · exact .refl c
    · exact .of_server (Nat.lt_of_succ_lt hleft) rfl
  | some r =>
    refine .of_server ?_ c.client_serverRead
    obtain ⟨line, up⟩ := r
    simp only [Conn.serverRead, hread]
    generalize hr : (auth c.connected c.random c.server line).run.run [] = r
    obtain ⟨(_ | _) | server, text⟩ := r
    · exact hleft
    · exact Nat.lt_of_succ_lt hleft
    · show server.left < c.server.left
      obtain ⟨_, _, h, rfl⟩ | ⟨_, _, h, rfl⟩ | ⟨_, _, h, rfl⟩ := auth_ok hreads hr <;>
        simp [h, Server.left]

theorem next_clientRead (c : Conn V) (hreads : c.client.reads = true) :
    c.Next c.clientRead := by
  cases hread : c.down.readline newline with
  | none => simpa [Conn.clientRead, hread] using Conn.Next.refl c
  | some r =>
    obtain ⟨line, down⟩ := r
    simp only [Conn.clientRead, hread]
    generalize hr : (clientStep c.random c.client line).run.run [] = r
    obtain ⟨_ | client, text⟩ := r
    · refine ⟨.inr (left_lt_of_parties ?_), rfl⟩
      exact Nat.add_lt_add_left (Client.left_of_reads hreads) _
    · obtain ⟨hleft, htoken⟩ := clientStep_ok hreads hr
      refine ⟨.inr (left_lt_of_parties ?_), htoken⟩
      exact Nat.add_lt_add_left hleft _

theorem next_deliverUp (c : Conn V) (n : Nat) : c.Next (c.deliverUp n) := by
  unfold Conn.deliverUp
  split
  · exact .refl c
  dsimp only
  split
  · rename_i hlong
    refine .of_server ?_ rfl
    exact Nat.lt_of_succ_lt (Server.left_of_reads hlong.1)
  · refine ⟨?_, rfl⟩
    obtain hsame | hless := c.up.deliver_cases n
    · rw [hsame]
      exact .inl rfl
    · exact .inr (left_lt_of_flight rfl rfl (Nat.add_lt_add_right hless _))

theorem next_deliverDown (c : Conn V) (n : Nat) : c.Next (c.deliverDown n) := by
  refine ⟨?_, rfl⟩
  obtain hsame | hless := c.down.deliver_cases n
  · rw [Conn.deliverDown, hsame]
    exact .inl rfl
  · exact .inr (left_lt_of_flight rfl rfl (Nat.add_lt_add_left hless _))

theorem next_open (c : Conn V) (hserver : c.server = .start) : c.Next c.open := by
  unfold Conn.open
  split
  · exact .of_server (by simp [hserver, Server.left]) rfl
  · exact .of_server (by simp [hserver, Server.left]) rfl

theorem next_authorize (c : Conn V) (result : Option (V × V)) : c.Next (c.authorize result) := by
  unfold Conn.authorize
  split
  · rename_i token secret hserver
    exact .of_server (by cases result <;> simp [hserver, Server.left]) rfl
  · exact .refl c

theorem next_put (hi : w.conns[i]? = some c) (h : c.Next c') :
    ∃ d, (w.put i c').conns[i]? = some d ∧ c.Next d := ⟨c', getElem_put hi, h⟩

end Connections

variable {V : Type} [DecidableEq V] {conf : Conf} {w : World V} {c : Conn V} {i j : Nat}

theorem next_serve (hi : w.conns[i]? = some c) :
    ∃ c', (w.serve conf i c).conns[i]? = some c' ∧ c.Next c' := by
  have hread (hreads : c.server.reads = true) :
      ∃ c', (w.put i c.serverRead).conns[i]? = some c' ∧ c.Next c' :=
    next_put hi (next_serverRead c hreads)
  unfold World.serve
  split <;> rename_i hserver
  · exact next_put hi (next_open c hserver)
  · exact hread (by simp [hserver, Server.reads])
  · exact hread (by simp [hserver, Server.reads])
  · exact hread (by simp [hserver, Server.reads])
  · exact next_put hi (.of_server (by simp [hserver, Server.left, Conn.close]) rfl)
  · split
    · exact next_put hi (.of_server (by simp [hserver, Server.left]) rfl)
    split
    · exact next_put hi (.of_server (by simp [hserver, Server.left, Conn.close]) rfl)
    · exact next_put hi (.of_server (by simp [hserver, Server.left]) rfl)
  · exact ⟨c, hi, .refl c⟩
  · exact ⟨c, hi, .refl c⟩
  · exact ⟨c, hi, .refl c⟩

theorem next_finish (hi : w.conns[i]? = some c) (err : Option Text) :
    ∃ c', (w.finish i c err).conns[i]? = some c' ∧ c.Next c' := by
  unfold World.finish
  split
  · rename_i server uid secret hserver
    exact next_put hi (.of_server (by simp [hserver, Server.left, Conn.close]) rfl)
  · exact ⟨c, hi, .refl c⟩

theorem serve_ne (hij : j ≠ i) (d : Conn V) : (w.serve conf j d).conns[i]? = w.conns[i]? := by
  unfold World.serve
  repeat' split
  all_goals first | rfl | exact List.getElem?_set_ne hij

theorem finish_ne (hij : j ≠ i) (d : Conn V) (err : Option Text) :
    (w.finish j d err).conns[i]? = w.conns[i]? := by
  unfold World.finish
  split
  · exact List.getElem?_set_ne hij
  · rfl

theorem step_ne {w' : World V} {d : Conn V} (hij : j ≠ i) (hstep : Step conf w j d w') :
    w'.conns[i]? = w.conns[i]? := by
  cases hstep with
  | serve => exact serve_ne hij d
  | finish err => exact finish_ne hij d err
  | _ => exact List.getElem?_set_ne hij

theorem next_step {w' : World V} (hi : w.conns[i]? = some c) (hclient : c.client ≠ .stranger)
    (hstep : Step conf w i c w') : ∃ c', w'.conns[i]? = some c' ∧ c.Next c' := by
  cases hstep with
  | serve => exact next_serve hi
  | read hreads => exact next_put hi (next_clientRead c hreads)
  | up n => exact next_put hi (next_deliverUp c n)
  | down n => exact next_put hi (next_deliverDown c n)
  | send hstranger => exact absurd hstranger hclient
  | hangup hstranger => exact absurd hstranger hclient
  | authorize result => exact next_put hi (next_authorize c result)
  | finish err => exact next_finish hi err

theorem next_exec (hi : w.conns[i]? = some c) (hclient : c.client ≠ .stranger) (e : Event V) :
    ∃ c', (w.exec conf e).conns[i]? = some c' ∧ c.Next c' := by
  obtain ⟨random, client, rfl⟩ | hsame | ⟨j, d, hj, hstep⟩ := exec_cases conf w e
  · have hlt : i < w.conns.length := (List.getElem?_eq_some_iff.mp hi).1
    exact ⟨c, (List.getElem?_append_left hlt).trans hi, .refl c⟩
  · rw [hsame]
    exact ⟨c, hi, .refl c⟩
  · by_cases hij : j = i
    · subst hij
      obtain rfl : d = c := Option.some.inj (hj.symm.trans hi)
      exact next_step hi hclient hstep
    · exact ⟨c, (step_ne hij hstep).trans hi, .refl c⟩

/-! ## Runs without an end -/

variable {es : Nat → Event V} {t : Text} {n : Nat}

def World.run (conf : Conf) (es : Nat → Event V) : Nat → World V :=
  Machine.run (World.exec conf) .empty es

/-- No turn of the connection is passed over for ever. -/
def Served (conf : Conf) (es : Nat → Event V) (i : Nat) : Prop :=
  ∀ turn : Turn, Machine.Fair
    (fun n => ∃ e, turn.Taken i e ∧
      ((World.run conf es n).exec conf e).conns[i]? ≠ (World.run conf es n).conns[i]?)
    (fun n => turn.Taken i (es n))

/-- The connection of a client that speaks the protocol. -/
def Speaks (w : World V) (i : Nat) (t : Text) (c : Conn V) : Prop :=
  w.conns[i]? = some c ∧ c.client.token = some t

omit [DecidableEq V] in
theorem Speaks.ne_stranger (h : Speaks w i t c) : c.client ≠ .stranger := by
  intro hstranger
  have htoken := h.2
  rw [hstranger] at htoken
  cases htoken

theorem speaks_exec (conf : Conf) (hc : Speaks w i t c) (e : Event V) :
    ∃ c', Speaks (w.exec conf e) i t c' ∧ (c' = c ∨ c'.left < c.left) := by
  obtain ⟨c', hi', hnext⟩ := next_exec hc.1 hc.ne_stranger e
  exact ⟨c', ⟨hi', hnext.token.trans hc.2⟩, hnext.less⟩

theorem speaks_run (hc : Speaks (World.run conf es n) i t c) (k : Nat) :
    ∃ c', Speaks (World.run conf es (n + k)) i t c' := by
  induction k with
  | zero => exact ⟨c, hc⟩
  | succ k ih =>
    obtain ⟨c', hc'⟩ := ih
    obtain ⟨c'', hc'', -⟩ := speaks_exec conf hc' (es (n + k))
    exact ⟨c'', hc''⟩

/-- The connection of a client that speaks the protocol comes to rest. -/
theorem exists_rest (hc : Speaks (World.run conf es n) i t c) :
    ∃ k c', ∀ m, n + k ≤ m → Speaks (World.run conf es m) i t c' := by
  have hless : WellFounded (InvImage (· < ·)
      fun o : Option (Conn V) => o.elim (toLex (0, 0)) Conn.left) := InvImage.wf _ wellFounded_lt
  obtain ⟨k, hk⟩ := Machine.exists_rest hless (x := fun k => (World.run conf es (n + k)).conns[i]?)
    fun k => by
      obtain ⟨c₁, hc₁⟩ := speaks_run hc k
      obtain ⟨c₂, hc₂, hnext⟩ := speaks_exec conf hc₁ (es (n + k))
      show (World.run conf es (n + (k + 1))).conns[i]? = _ ∨ _
      rw [InvImage, hc₁.1, show (World.run conf es (n + (k + 1))).conns[i]? = some c₂ from hc₂.1]
      exact hnext.imp (congrArg some) id
  obtain ⟨c', hc'⟩ := speaks_run hc k
  refine ⟨k, c', fun m hm => ⟨?_, hc'.2⟩⟩
  have hsame := hk (m - n) (by omega)
  rw [show n + (m - n) = m by omega] at hsame
  exact hsame.trans hc'.1

/-- Every client that speaks the protocol reads its last line, which is the reply to what the
handlers have given for its token, in every run that passes over no turn of its connection for
ever. -/
theorem replied (hok : ∀ n, (es n).ok (World.run conf es n)) (hserved : Served conf es i)
    (hc : Speaks (World.run conf es n) i t c) :
    ∃ m c' secret reply, n ≤ m ∧ (World.run conf es m).conns[i]? = some c' ∧
      Reply conf secret t c'.handled reply ∧
      ((∃ subid, c'.client = .done secret t reply subid) ∨
        c'.client = .failed (.result secret t) reply) := by
  obtain ⟨k, c', hrest⟩ := exists_rest hc
  have hc' := hrest (n + k) (Nat.le_refl _)
  have hreach : Reached conf (World.run conf es (n + k)) := Machine.reach_run hok (n + k)
  cases hreads : c'.client.reads with
  | false =>
    obtain hstranger | ⟨-, t', -, ws, hp⟩ := talking hreach c' (List.mem_of_getElem? hc'.1)
    · exact absurd hstranger hc'.ne_stranger
    obtain rfl : t' = t := Option.some.inj (hp.token_eq.symm.trans hc'.2)
    obtain ⟨secret, reply, hreply, hend⟩ := hp.of_end hreads
    exact ⟨n + k, c', secret, reply, by omega, hc'.1, hreply, hend⟩
  -- otherwise some turn is possible for ever, and taken it changes the connection
  | true =>
    obtain ⟨turn, hgoes⟩ := exists_turn hreach hc'.1 hreads
    obtain ⟨m, hm, htaken⟩ := hserved turn (n + k) fun m hm => by
      obtain ⟨e, he⟩ := turn.exists_taken i
      refine ⟨e, he, ?_⟩
      rw [(hrest m hm).1]
      exact hgoes _ _ (hrest m hm).1 he
    exact absurd (hrest (m + 1) (by omega)).1 (hgoes _ _ (hrest m hm).1 htaken)

/-- One connection, whose turns are taken one after the other. -/
def sampleEvents : Nat → Event Nat
  | 0 => .connect sampleRandom (.challenge [104, 105])
  | n + 1 =>
    [.serve 0, .read 0, .up 0 1, .down 0 1, .authorize 0 (some (0, 1)), .finish 0 none].getD
      (n % 6) (.serve 0)

theorem sample_served : Served sampleConf sampleEvents 0 := by
  intro turn n _
  have hturn : ∃ k, k < 6 ∧ turn.Taken 0
      ([.serve 0, .read 0, .up 0 1, .down 0 1, .authorize 0 (some (0, 1)), .finish 0 none].getD k
        (.serve 0) : Event Nat) := by
    cases turn with
    | serve => exact ⟨0, by decide, .serve⟩
    | read => exact ⟨1, by decide, .read⟩
    | up => exact ⟨2, by decide, .up Nat.one_pos⟩
    | down => exact ⟨3, by decide, .down Nat.one_pos⟩
    | authorize => exact ⟨4, by decide, .authorize⟩
    | finish => exact ⟨5, by decide, .finish⟩
  obtain ⟨k, hk, htaken⟩ := hturn
  refine ⟨6 * n + k + 1, by omega, ?_⟩
  show turn.Taken 0 (sampleEvents (6 * n + k + 1))
  rw [sampleEvents, show (6 * n + k) % 6 = k by omega]
  exact htaken

theorem sample_ok (n : Nat) : (sampleEvents n).ok (World.run sampleConf sampleEvents n) := by
  cases n with
  | zero => exact .inr ⟨_, rfl, by decide⟩
  | succ n =>
    have hlt : n % 6 < 6 := Nat.mod_lt n (by decide)
    rw [sampleEvents]
    generalize n % 6 = k at hlt
    match k with
    | 0 | 1 | 2 | 3 | 4 | 5 => trivial

theorem replied_sample : ∃ m c secret reply, 1 ≤ m ∧
    (World.run sampleConf sampleEvents m).conns[0]? = some c ∧
      Reply sampleConf secret [104, 105] c.handled reply ∧
      ((∃ subid, c.client = .done secret [104, 105] reply subid) ∨
        c.client = .failed (.result secret [104, 105]) reply) :=
  replied sample_ok sample_served (n := 1) ⟨rfl, rfl⟩

end SkynetHotfix.Login
