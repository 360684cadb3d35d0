import SkynetHotfix.Login.Agreed

/-!
# No login is stuck

As long as a client that speaks the protocol has not read the last line, some turn takes its
connection further (`exists_turn`): a line is on the way or is there and is read (`goes_up`,
`goes_down`), or the server goes on by itself.
-/

namespace SkynetHotfix.Login

open Crypt

section Connections

variable {V : Type} {conf : Conf} {w : World V} {c c' : Conn V} {i : Nat}

theorem getElem_put (hi : w.conns[i]? = some c) : (w.put i c').conns[i]? = some c' := by
  obtain ⟨hlt, -⟩ := List.getElem?_eq_some_iff.mp hi
  simp [World.put, hlt]

theorem ne_of_server (h : c'.server ≠ c.server) : some c' ≠ some c := fun heq =>
  h (congrArg Conn.server (Option.some.inj heq))

theorem ne_of_client (h : c'.client ≠ c.client) : some c' ≠ some c := fun heq =>
  h (congrArg Conn.client (Option.some.inj heq))

theorem up_deliverUp (hreads : c.server.reads = true) (n : Nat) :
    (c.deliverUp n).up = c.up.deliver n := by
  unfold Conn.deliverUp
  split
  · rename_i hstart
    rw [hstart] at hreads
    cases hreads
  · rfl

theorem serve_reads [DecidableEq V] (hreads : c.server.reads = true) :
    w.serve conf i c = w.put i c.serverRead := by
  obtain ⟨random, server, client, up, down, hung, handled⟩ := c
  cases server <;> first | rfl | cases hreads

end Connections

variable {V : Type} [DecidableEq V] {conf : Conf} {w : World V} {c : Conn V} {i : Nat}
  {line rest text : Text}

/-- The turns that a connection waits for. -/
inductive Turn
  | serve
  | read
  | up
  | down
  | authorize
  | finish

inductive Turn.Taken (i : Nat) : Turn → Event V → Prop
  | serve : Taken i .serve (.serve i)
  | read : Taken i .read (.read i)
  | up {n : Nat} (hn : 0 < n) : Taken i .up (.up i n)
  | down {n : Nat} (hn : 0 < n) : Taken i .down (.down i n)
  | authorize {result : Option (V × V)} : Taken i .authorize (.authorize i result)
  | finish {err : Option Text} : Taken i .finish (.finish i err)

omit [DecidableEq V] in
theorem Turn.exists_taken (turn : Turn) (i : Nat) : ∃ e : Event V, turn.Taken i e := by
  cases turn with
  | serve => exact ⟨_, .serve⟩
  | read => exact ⟨_, .read⟩
  | up => exact ⟨_, .up Nat.one_pos⟩
  | down => exact ⟨_, .down Nat.one_pos⟩
  | authorize => exact ⟨.authorize i none, .authorize⟩
  | finish => exact ⟨.finish i none, .finish⟩

/-- The turn, whenever it is taken, changes the connection. -/
def Goes (conf : Conf) (i : Nat) (c : Conn V) (turn : Turn) : Prop :=
  ∀ (w : World V) (e : Event V), w.conns[i]? = some c → turn.Taken i e →
    (w.exec conf e).conns[i]? ≠ some c

theorem goes_serve (h : ∀ w : World V, w.conns[i]? = some c →
    (w.serve conf i c).conns[i]? ≠ some c) : Goes conf i c .serve := by
  rintro w e hi ⟨⟩
  rw [World.exec, hi]
  exact h w hi

/-- A line on the way to the server. -/
theorem goes_up {server : Server V} (hreads : c.server.reads = true) (hhung : c.hung = false)
    (hline : newline ∉ line) (hup : c.up.all = line ++ newline :: rest)
    (hstep : (auth true c.random c.server line).run.run [] = (.ok server, text))
    (hne : server ≠ c.server) : ∃ turn, Goes conf i c turn := by
  have hall : newline ∈ c.up.all := by simp [hup]
  obtain hflight | ⟨⟨line', up⟩, hread⟩ := Pipe.exists_readline hall
  · refine ⟨.up, fun w e hi htaken => ?_⟩
    cases htaken with
    | @up n hn =>
      rw [World.exec, hi]
      show (w.put i (c.deliverUp n)).conns[i]? ≠ some c
      rw [getElem_put hi]
      intro heq
      have hsame := congrArg Conn.up (Option.some.inj heq)
      rw [up_deliverUp hreads] at hsame
      exact Pipe.deliver_ne hflight hn hsame
  · obtain ⟨heq, -⟩ := Conn.serverRead_eq hread hhung hline hup hstep
    refine ⟨.serve, goes_serve fun w hi => ?_⟩
    rw [serve_reads hreads, getElem_put hi, heq]
    exact ne_of_server hne

/-- A line on the way to the client. -/
theorem goes_down {r : Except Raised Client} (hreads : c.client.reads = true)
    (hline : newline ∉ line) (hdown : c.down.all = line ++ newline :: rest)
    (hstep : (clientStep c.random c.client line).run.run [] = (r, text))
    (hne : c.client.after line r ≠ c.client) : ∃ turn, Goes conf i c turn := by
  have hall : newline ∈ c.down.all := by simp [hdown]
  obtain hflight | ⟨⟨line', down⟩, hread⟩ := Pipe.exists_readline hall
  · refine ⟨.down, fun w e hi htaken => ?_⟩
    cases htaken with
    | @down n hn =>
      rw [World.exec, hi]
      show (w.put i (c.deliverDown n)).conns[i]? ≠ some c
      rw [getElem_put hi]
      intro heq
      exact Pipe.deliver_ne hflight hn (congrArg Conn.down (Option.some.inj heq))
  · obtain ⟨heq, -⟩ := Conn.clientRead_eq hread hline hdown hstep
    refine ⟨.read, fun w e hi htaken => ?_⟩
    cases htaken with
    | read =>
      rw [World.exec, hi]
      show (if c.client.reads = true then w.put i c.clientRead else w).conns[i]? ≠ some c
      rw [if_pos hreads, getElem_put hi, heq]
      exact ne_of_client hne

omit [DecidableEq V] in
/-- The server has closed and nothing is on the way: the client waits no more. -/
theorem Phase.over {random : Random} {t up : Text} {ws : Words random t} {client : Client}
    {handled : List (Handled V)} (h : Phase conf ws .closed client up [] handled) :
    client.reads = false := by
  generalize hd : ([] : Text) = down at h
  cases h with
  | closed => simp at hd
  | done | failed => rfl

theorem Phase.goes {random : Random} {t : Text} {ws : Words random t} (hrandom : c.random = random)
    (hhung : c.hung = false)
    (h : Phase conf ws c.server c.client c.up.all c.down.all c.handled)
    (hreads : c.client.reads = true) : ∃ turn, Goes conf i c turn := by
  subst hrandom
  generalize hs : c.server = server, hc : c.client = client, hu : c.up.all = up,
    hd : c.down.all = down, hh : c.handled = handled at h hreads
  cases h with
  | start =>
    refine ⟨.serve, goes_serve fun w hi => ?_⟩
    simp only [World.serve, hs]
    rw [getElem_put hi]
    exact ne_of_server (by rw [Conn.open]; split <;> simp [hs])
  | hello =>
    exact goes_down (by rw [hc]; rfl) (newline_notMem _) hd (by rw [hc]; exact client_challenge)
      (by simp [hc, Client.after])
  | exchange =>
    exact goes_up (by rw [hs]; rfl) hhung (newline_notMem _) hu
      (by rw [hs]; exact auth_handshake (lrandomkey c.random.challenge)) (by simp [hs])
  | answer =>
    exact goes_down (by rw [hc]; rfl) (newline_notMem _) hd
      (by rw [hc]; exact client_exchange ws) (by simp [hc, Client.after])
  | response =>
    rw [List.append_assoc, List.singleton_append] at hu
    exact goes_up (by rw [hs]; rfl) hhung (newline_notMem _) hu (by rw [hs]; exact auth_response ws)
      (by simp [hs])
  | token =>
    exact goes_up (by rw [hs]; rfl) hhung (newline_notMem _) hu (by rw [hs]; exact auth_token ws)
      (by simp [hs])
  | auth =>
    refine ⟨.authorize, fun w e hi htaken => ?_⟩
    cases htaken with
    | @authorize result =>
      rw [World.exec, hi]
      show (w.put i (c.authorize result)).conns[i]? ≠ some c
      rw [getElem_put hi]
      simp only [Conn.authorize, hs]
      exact ne_of_server (by cases result <;> simp [hs])
  | @returned server uid =>
    refine ⟨.serve, goes_serve fun w hi => ?_⟩
    have hlogin : (w.put i { c with server := .login server uid c.random.secret }).conns[i]? ≠
        some c := by
      rw [getElem_put hi]
      exact ne_of_server (by simp [hs])
    simp only [World.serve, hs]
    split
    · exact hlogin
    split
    · rw [getElem_put hi]
      exact ne_of_server (by simp [hs, Conn.close])
    · exact hlogin
  | refused =>
    refine ⟨.serve, goes_serve fun w hi => ?_⟩
    simp only [World.serve, hs]
    rw [getElem_put hi]
    exact ne_of_server (by simp [hs, Conn.close])
  | login =>
    refine ⟨.finish, fun w e hi htaken => ?_⟩
    cases htaken with
    | @finish err =>
      rw [World.exec, hi]
      show (w.finish i c err).conns[i]? ≠ some c
      simp only [World.finish, hs]
      show (w.put i (Conn.close _ _)).conns[i]? ≠ some c
      rw [getElem_put hi]
      exact ne_of_server (by simp [hs, Conn.close])
  | closed h =>
    obtain ⟨r, hstep, hphase⟩ := Phase.of_reply ws h
    refine goes_down (by rw [hc]; rfl) (newline_notMem_reply h) hd (by rw [hc]; exact hstep) ?_
    rw [hc]
    intro heq
    have hover := hphase.over
    rw [heq] at hover
    cases hover
  | done | failed => cases hreads

/-- Whatever the steps of all connections have been, a client that speaks the protocol and has not
read the last line can still go on. -/
theorem exists_turn (h : Reached conf w) (hi : w.conns[i]? = some c)
    (hreads : c.client.reads = true) : ∃ turn, Goes conf i c turn := by
  obtain hstranger | ⟨hhung, t, -, ws, hp⟩ := talking h c (List.mem_of_getElem? hi)
  · rw [hstranger] at hreads
    cases hreads
  · exact hp.goes rfl hhung hreads

end SkynetHotfix.Login
