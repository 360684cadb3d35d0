import SkynetHotfix.Login.Basic

/-!
# The two sides agree

What a client that speaks the protocol and the server have said to each other, and where they are,
is one of a few phases, whatever the order of the steps (`Phase`, `talking`). The lines of one side
are texts of which the other side makes the same values (`auth_handshake`, `client_exchange` and so
on), and no line is too long for the buffer of the server (`Words.short`).
-/

namespace SkynetHotfix.Login

open Crypt

variable {V : Type} {random : Random} {t : Text} {conf : Conf} {w : World V} {c : Conn V}

/-! ## The lines -/

def Random.hello (r : Random) : Text := lb64encode (lrandomkey r.challenge)

def Random.clientLine (r : Random) : Text :=
  lb64encode (powerText (number (lrandomkey r.clientkey)))

def Random.serverLine (r : Random) : Text :=
  lb64encode (powerText (number (lrandomkey r.serverkey)))

def Random.secret (r : Random) : Text :=
  powerText (number (lrandomkey r.serverkey) * number (lrandomkey r.clientkey))

/-- What the client answers. -/
structure Words (random : Random) (t : Text) where
  hmac : Text
  etoken : Text
  hmac_eq : lhmac64 (lrandomkey random.challenge) random.secret = .ok hmac
  etoken_eq : ldesencode random.secret t = .ok etoken

theorem length_powerText (n : Nat) : (powerText n).length = 8 := by simp [powerText]

theorem exists_words (random : Random) (t : Text) : Nonempty (Words random t) := by
  obtain ⟨x, hx, -⟩ := read64_eq "Invalid uint64 x" (length_lrandomkey random.challenge)
  obtain ⟨y, hy, -⟩ := read64_eq "Invalid uint64 y" (length_powerText
    (number (lrandomkey random.serverkey) * number (lrandomkey random.clientkey)))
  obtain ⟨SK, hSK⟩ := exists_des_key (length_powerText
    (number (lrandomkey random.serverkey) * number (lrandomkey random.clientkey)))
  refine ⟨⟨pushqword (hmac x y), desencode SK t, ?_, ?_⟩⟩
  · rw [lhmac64, hx, Random.secret, hy]
    rfl
  · rw [ldesencode, Random.secret, hSK]
    rfl

variable (ws : Words random t)

theorem ldesdecode_etoken : ldesdecode random.secret ws.etoken = .ok t := by
  obtain ⟨SK, hSK⟩ := exists_des_key (length_powerText
    (number (lrandomkey random.serverkey) * number (lrandomkey random.clientkey)))
  have hE := ws.etoken_eq
  rw [ldesencode, Random.secret, hSK] at hE
  rw [← Except.ok.inj hE]
  exact ldesdecode_desencode hSK t

theorem lift_ok {α : Type} (x : α) : (liftM (Except.ok x : Except Fault α) : Talk α) = pure x := rfl

theorem auth_handshake (challenge : Text) :
    (auth true random (.handshake challenge : Server V) random.clientLine).run.run [] =
      (.ok (.response challenge random.secret), random.serverLine ++ [newline]) := by
  have hexchange := dhexchange_eq (length_lrandomkey random.serverkey)
    (number_lrandomkey random.serverkey)
  have hsecret := dhsecret_eq (length_lrandomkey random.serverkey)
    (number_lrandomkey random.serverkey) (number (lrandomkey random.clientkey))
  rw [Nat.mul_comm] at hsecret
  simp only [auth, Random.clientLine, lb64decode_lb64encode, lift_ok, pure_bind, hexchange,
    hsecret, length_powerText]
  rfl

theorem auth_response :
    (auth true random (.response (lrandomkey random.challenge) random.secret : Server V)
      (lb64encode ws.hmac)).run.run [] = (.ok (.token random.secret), []) := by
  simp only [auth, ws.hmac_eq, lb64decode_lb64encode, lift_ok, pure_bind]
  rw [if_neg (not_not_intro rfl)]
  rfl

theorem auth_token :
    (auth true random (.token random.secret : Server V) (lb64encode ws.etoken)).run.run [] =
      (.ok (.auth t random.secret), []) := by
  simp only [auth, lb64decode_lb64encode, lift_ok, pure_bind, ldesdecode_etoken]
  rfl

theorem client_challenge :
    (clientStep random (.challenge t) random.hello).run.run [] =
      (.ok (.exchange (lrandomkey random.challenge) (lrandomkey random.clientkey) t),
        random.clientLine ++ [newline]) := by
  have hexchange := dhexchange_eq (length_lrandomkey random.clientkey)
    (number_lrandomkey random.clientkey)
  simp only [clientStep, Random.hello, lb64decode_lb64encode, lift_ok, pure_bind, hexchange]
  rfl

theorem client_exchange :
    (clientStep random (.exchange (lrandomkey random.challenge) (lrandomkey random.clientkey) t)
      random.serverLine).run.run [] =
      (.ok (.result random.secret t),
        lb64encode ws.hmac ++ [newline] ++ (lb64encode ws.etoken ++ [newline])) := by
  have hsecret : ldhsecret (powerText (number (lrandomkey random.serverkey)))
      (lrandomkey random.clientkey) = .ok random.secret :=
    dhsecret_eq (length_lrandomkey random.clientkey) (number_lrandomkey random.clientkey) _
  simp only [clientStep, Random.serverLine, lb64decode_lb64encode, lift_ok, pure_bind, hsecret,
    ws.hmac_eq, ws.etoken_eq]
  rfl

/-! ## The lengths -/

theorem length_lb64encode (x : Text) : (lb64encode x).length = (x.length + 2) / 3 * 4 := by
  fun_induction lb64encode x with
  | case1 t0 t1 t2 x v ih =>
    simp [ih]
    omega
  | _ => simp

theorem length_lhmac64 {x y h : Text} (hh : lhmac64 x y = .ok h) : h.length = 8 := by
  unfold lhmac64 at hh
  cases hx : read64 "Invalid uint64 x" x with
  | error e => simp [hx, bind, Except.bind] at hh
  | ok xx =>
    cases hy : read64 "Invalid uint64 y" y with
    | error e => simp [hx, hy, bind, Except.bind] at hh
    | ok yy =>
      rw [hx, hy] at hh
      obtain rfl := Except.ok.inj hh
      rfl

theorem Words.short (ht : t.length < 6128) :
    (lb64encode ws.hmac ++ [newline] ++ (lb64encode ws.etoken ++ [newline])).length ≤ 8192 := by
  obtain ⟨SK, hSK⟩ := exists_des_key (length_powerText
    (number (lrandomkey random.serverkey) * number (lrandomkey random.clientkey)))
  have hE := ws.etoken_eq
  rw [ldesencode, Random.secret, hSK] at hE
  have hlen := length_desencode SK t
  rw [show desencode SK t = ws.etoken from Except.ok.inj hE] at hlen
  simp only [List.length_append, List.length_cons, List.length_nil, length_lb64encode,
    length_lhmac64 ws.hmac_eq, hlen]
  omega

theorem client_ok (secret err : Text) :
    (clientStep random (.result secret t) (ascii "200 " ++ lb64encode err)).run.run [] =
      (.ok (.done secret t (ascii "200 " ++ lb64encode err) err), []) := by
  have hdrop : (ascii "200 " ++ lb64encode err).drop 4 = lb64encode err := by
    rw [List.drop_append]
    rfl
  have haccepted : accepted (ascii "200 " ++ lb64encode err) = true := rfl
  simp only [clientStep, hdrop, lb64decode_lb64encode, lift_ok]
  rw [if_neg (by rw [haccepted]; decide)]
  rfl

/-- The client raises an error. -/
theorem client_refused {reply : Text} (secret : Text) (h : accepted reply = false) :
    (clientStep random (.result secret t) reply).run.run [] =
      (.error (.fault (.error "assertion failed!")), []) := by
  simp only [clientStep]
  rw [if_pos (by rw [h]; decide)]
  rfl

/-! ## The phases -/

/-- The last line of the server, for what the handlers have given. -/
inductive Reply (conf : Conf) (secret token : Text) : List (Handled V) → Text → Prop
  | unauthorized : Reply conf secret token [.auth token none] (ascii "401 Unauthorized")
  | already {server uid : V} (h : conf.multilogin = false) :
      Reply conf secret token [.auth token (some (server, uid))] (ascii "406 Not Acceptable")
  | forbidden {server uid : V} :
      Reply conf secret token [.auth token (some (server, uid)), .login server uid secret none]
        (ascii "403 Forbidden")
  | ok {server uid : V} (err : Text) :
      Reply conf secret token
        [.auth token (some (server, uid)), .login server uid secret (some err)]
        (ascii "200 " ++ lb64encode err)

/-- Where the server and the client are, what is on the way to the server and to the client, and
what the handlers have given. -/
inductive Phase (conf : Conf) (ws : Words random t) :
    Server V → Client → Text → Text → List (Handled V) → Prop
  | start : Phase conf ws .start (.challenge t) [] [] []
  | hello : Phase conf ws (.handshake (lrandomkey random.challenge)) (.challenge t) []
      (random.hello ++ [newline]) []
  | exchange : Phase conf ws (.handshake (lrandomkey random.challenge))
      (.exchange (lrandomkey random.challenge) (lrandomkey random.clientkey) t)
      (random.clientLine ++ [newline]) [] []
  | answer : Phase conf ws (.response (lrandomkey random.challenge) random.secret)
      (.exchange (lrandomkey random.challenge) (lrandomkey random.clientkey) t) []
      (random.serverLine ++ [newline]) []
  | response : Phase conf ws (.response (lrandomkey random.challenge) random.secret)
      (.result random.secret t)
      (lb64encode ws.hmac ++ [newline] ++ (lb64encode ws.etoken ++ [newline])) [] []
  | token : Phase conf ws (.token random.secret) (.result random.secret t)
      (lb64encode ws.etoken ++ [newline]) [] []
  | auth : Phase conf ws (.auth t random.secret) (.result random.secret t) [] [] []
  | returned {server uid : V} :
      Phase conf ws (.returned server uid random.secret) (.result random.secret t) [] []
        [.auth t (some (server, uid))]
  | refused : Phase conf ws .refused (.result random.secret t) [] [] [.auth t none]
  | login {server uid : V} :
      Phase conf ws (.login server uid random.secret) (.result random.secret t) [] []
        [.auth t (some (server, uid))]
  | closed {handled : List (Handled V)} {reply : Text}
      (h : Reply conf random.secret t handled reply) :
      Phase conf ws .closed (.result random.secret t) [] (reply ++ [newline]) handled
  | done {server uid : V} (err : Text) :
      Phase conf ws .closed (.done random.secret t (ascii "200 " ++ lb64encode err) err) [] []
        [.auth t (some (server, uid)), .login server uid random.secret (some err)]
  | failed {handled : List (Handled V)} {reply : Text}
      (h : Reply conf random.secret t handled reply) (hno : accepted reply = false) :
      Phase conf ws .closed (.failed (.result random.secret t) reply) [] [] handled

variable {ws} {handled : List (Handled V)}

theorem newline_notMem_reply {secret reply : Text} (h : Reply conf secret t handled reply) :
    newline ∉ reply := by
  cases h with
  | unauthorized | already | forbidden => decide
  | ok err => exact fun h => (List.mem_append.mp h).elim (by decide) (newline_notMem err)

/-- The invariant of a connection: its client is a stranger, or the two talk. -/
def Talking (conf : Conf) (c : Conn V) : Prop :=
  c.client = .stranger ∨ c.hung = false ∧ ∃ t, t.length < 6128 ∧ ∃ ws : Words c.random t,
    Phase conf ws c.server c.client c.up.all c.down.all c.handled

theorem Phase.of_eq {server server' : Server V} {client client' : Client} {up up' down down' : Text}
    {handled' : List (Handled V)} (h : Phase conf ws server client up down handled)
    (hs : server = server') (hc : client = client') (hu : up = up') (hd : down = down')
    (hh : handled = handled') : Phase conf ws server' client' up' down' handled' := by
  subst hs hc hu hd hh
  exact h

/-- A line that the server reads. -/
theorem Conn.serverRead_eq {line line' rest text : Text} {server : Server V} {up : Pipe UInt8}
    (hread : c.up.readline newline = some (line', up)) (hhung : c.hung = false)
    (hline : newline ∉ line) (hup : c.up.all = line ++ newline :: rest)
    (hstep : (Login.auth true c.random c.server line).run.run [] = (.ok server, text)) :
    c.serverRead = { c with server := server, up := up, down := c.down.write text } ∧
      up.all = rest := by
  obtain ⟨rfl, hrest⟩ := Pipe.readline_all hline hup hread
  have hconnected : c.connected = true := by simp [connected, hhung]
  exact ⟨by simp [serverRead, hread, hconnected, hstep], hrest⟩

theorem Conn.clientRead_eq {line line' rest text : Text} {r : Except Raised Client}
    {down : Pipe UInt8} (hread : c.down.readline newline = some (line', down))
    (hline : newline ∉ line) (hdown : c.down.all = line ++ newline :: rest)
    (hstep : (clientStep c.random c.client line).run.run [] = (r, text)) :
    c.clientRead =
        { c with client := c.client.after line r, down := down, up := c.up.write text } ∧
      down.all = rest := by
  obtain ⟨rfl, hrest⟩ := Pipe.readline_all hline hdown hread
  exact ⟨by simp [clientRead, hread, hstep], hrest⟩

theorem Conn.client_serverRead (c : Conn V) : c.serverRead.client = c.client := by
  unfold serverRead
  split
  · split <;> rfl
  · rfl

/-! ## One step -/

theorem Talking.serverRead (h : Talking conf c) : Talking conf c.serverRead := by
  obtain hstranger | ⟨hhung, t, ht, ws, h⟩ := h
  · exact .inl (c.client_serverRead.trans hstranger)
  cases hread : c.up.readline newline with
  | none =>
    have hsame : c.serverRead = c := by simp [Conn.serverRead, hread, Conn.connected, hhung]
    rw [hsame]
    exact .inr ⟨hhung, t, ht, ws, h⟩
  | some r =>
    obtain ⟨line, up'⟩ := r
    obtain ⟨random, server, client, up, down, hung, handled⟩ := c
    dsimp only at ws h hread hhung
    generalize hu : up.all = u, hd : down.all = d at h
    cases h with
    | exchange =>
      obtain ⟨heq, hall⟩ :=
        Conn.serverRead_eq (c := ⟨random, .handshake _, _, up, down, hung, []⟩) hread hhung
          (newline_notMem _) hu (auth_handshake (lrandomkey random.challenge))
      rw [heq]
      refine .inr ⟨hhung, t, ht, ws, Phase.answer.of_eq rfl rfl hall.symm ?_ rfl⟩
      rw [Pipe.all_write, hd, List.nil_append]
    | response =>
      rw [List.append_assoc, List.singleton_append] at hu
      obtain ⟨heq, hall⟩ :=
        Conn.serverRead_eq (c := ⟨random, .response _ _, _, up, down, hung, []⟩) hread hhung
          (newline_notMem _) hu (auth_response ws)
      rw [heq]
      refine .inr ⟨hhung, t, ht, ws, Phase.token.of_eq rfl rfl hall.symm ?_ rfl⟩
      rw [Pipe.all_write, hd, List.nil_append]
    | token =>
      obtain ⟨heq, hall⟩ :=
        Conn.serverRead_eq (c := ⟨random, .token _, _, up, down, hung, []⟩) hread hhung
          (newline_notMem _) hu (auth_token ws)
      rw [heq]
      refine .inr ⟨hhung, t, ht, ws, Phase.auth.of_eq rfl rfl hall.symm ?_ rfl⟩
      rw [Pipe.all_write, hd, List.nil_append]
    | _ =>
      rw [Pipe.readline_empty hu] at hread
      cases hread

/-- The last line, which the client reads. -/
theorem Phase.of_reply (ws : Words random t) {reply : Text} (h : Reply conf random.secret t handled reply) :
    ∃ r, (clientStep random (.result random.secret t) reply).run.run [] = (r, []) ∧
      Phase conf ws .closed (Client.after (.result random.secret t) reply r) [] [] handled := by
  cases h with
  | ok err => exact ⟨_, client_ok random.secret err, .done err⟩
  | unauthorized => exact ⟨_, client_refused random.secret rfl, .failed .unauthorized rfl⟩
  | already h => exact ⟨_, client_refused random.secret rfl, .failed (.already h) rfl⟩
  | forbidden => exact ⟨_, client_refused random.secret rfl, .failed .forbidden rfl⟩

theorem Talking.clientRead (h : Talking conf c) (hreads : c.client.reads = true) :
    Talking conf c.clientRead := by
  cases hread : c.down.readline newline with
  | none => simpa [Conn.clientRead, hread] using h
  | some r =>
    obtain ⟨line, down'⟩ := r
    obtain hstranger | ⟨hhung, t, ht, ws, h⟩ := h
    · rw [hstranger] at hreads
      cases hreads
    obtain ⟨random, server, client, up, down, hung, handled⟩ := c
    dsimp only at ws h hread hhung
    generalize hu : up.all = u, hd : down.all = d at h
    cases h with
    | hello =>
      obtain ⟨heq, hall⟩ :=
        Conn.clientRead_eq (c := ⟨random, .handshake _, .challenge t, up, down, hung, []⟩)
          hread (newline_notMem _) hd client_challenge
      rw [heq]
      refine .inr ⟨hhung, t, ht, ws, Phase.exchange.of_eq rfl rfl ?_ hall.symm rfl⟩
      rw [Pipe.all_write, hu, List.nil_append]
    | answer =>
      obtain ⟨heq, hall⟩ :=
        Conn.clientRead_eq (c := ⟨random, _, .exchange _ _ t, up, down, hung, []⟩)
          hread (newline_notMem _) hd (client_exchange ws)
      rw [heq]
      refine .inr ⟨hhung, t, ht, ws, Phase.response.of_eq rfl rfl ?_ hall.symm rfl⟩
      rw [Pipe.all_write, hu, List.nil_append]
    | closed hreply =>
      obtain ⟨r, hstep, hphase⟩ := Phase.of_reply ws hreply
      obtain ⟨heq, hall⟩ :=
        Conn.clientRead_eq (c := ⟨random, .closed, .result _ t, up, down, hung, handled⟩)
          hread (newline_notMem_reply hreply) hd hstep
      rw [heq]
      refine .inr ⟨hhung, t, ht, ws, hphase.of_eq rfl rfl ?_ hall.symm rfl⟩
      rw [Pipe.all_write, hu, List.nil_append]
    | _ =>
      rw [Pipe.readline_empty hd] at hread
      cases hread

/-- What is on the way to a server that reads is not too long. -/
theorem Phase.short (ht : t.length < 6128) {server : Server V} {client : Client} {up down : Text}
    (h : Phase conf ws server client up down handled) : up.length ≤ 8192 := by
  have hshort := ws.short ht
  simp only [List.length_append, List.length_cons, List.length_nil, length_lb64encode] at hshort
  cases h <;> simp [Random.clientLine, length_lb64encode, length_powerText] <;> omega

theorem Talking.deliverUp (h : Talking conf c) (n : Nat) : Talking conf (c.deliverUp n) := by
  unfold Conn.deliverUp
  split
  · exact h
  obtain hstranger | ⟨hhung, t, ht, ws, h⟩ := h
  · exact .inl hstranger
  have hle : (c.up.deliver n).got.length ≤ 8192 := by
    refine (Pipe.length_got_le _).trans ?_
    rw [Pipe.all_deliver]
    exact h.short ht
  have hkeep : ¬ (c.server.reads = true ∧ (c.up.deliver n).got.length > 8192) :=
    fun hlong => absurd hlong.2 (Nat.not_lt.mpr hle)
  dsimp only
  rw [if_neg hkeep]
  exact .inr ⟨hhung, t, ht, ws, h.of_eq rfl rfl (c.up.all_deliver n).symm rfl rfl⟩

theorem Talking.deliverDown (h : Talking conf c) (n : Nat) : Talking conf (c.deliverDown n) := by
  obtain hstranger | ⟨hhung, t, ht, ws, h⟩ := h
  · exact .inl hstranger
  · exact .inr ⟨hhung, t, ht, ws, h.of_eq rfl rfl rfl (c.down.all_deliver n).symm rfl⟩

/-- The server goes on by itself. -/
theorem Talking.turn (h : Talking conf c) {c' : Conn V} (hclient : c'.client = c.client)
    (hhung : c'.hung = c.hung) (hrandom : c'.random = c.random) (hup : c'.up = c.up)
    (hphase : c.hung = false → ∀ (t : Text) (ws : Words c.random t),
      Phase conf ws c.server c.client c.up.all c.down.all c.handled →
        Phase conf ws c'.server c.client c.up.all c'.down.all c'.handled) : Talking conf c' := by
  obtain ⟨random, server, client, up, down, hung, handled⟩ := c'
  dsimp only at hclient hhung hrandom hup
  subst hclient hhung hrandom hup
  obtain hstranger | ⟨hhung, t, ht, ws, h⟩ := h
  · exact .inl hstranger
  · exact .inr ⟨hhung, t, ht, ws, hphase hhung t ws h⟩

/-- The reply that the server writes before it closes the connection. -/
theorem Talking.close (h : Talking conf c) {handled : List (Handled V)} {reply : Text}
    (hphase : ∀ (t : Text) (ws : Words c.random t),
      Phase conf ws c.server c.client c.up.all c.down.all c.handled →
        Reply conf c.random.secret t handled reply ∧ c.client = .result c.random.secret t ∧
          c.up.all = [] ∧ c.down.all = []) :
    Talking conf (Conn.close { c with handled := handled } reply) := by
  refine h.turn rfl rfl rfl rfl fun hhung t ws hp => ?_
  obtain ⟨hreply, hclient, hup, hdown⟩ := hphase t ws hp
  have hconnected : Conn.connected { c with handled := handled } = true := by
    simp [Conn.connected, hhung]
  refine (Phase.closed hreply).of_eq rfl hclient.symm hup.symm ?_ rfl
  rw [Conn.close, if_pos hconnected, Pipe.all_write, hdown, List.nil_append]

variable {server' : Server V} {client : Client} {up down secret token : Text} {server uid : V}

theorem Phase.of_auth (h : Phase conf ws (.auth token secret) client up down handled) :
    token = t ∧ secret = random.secret ∧ handled = [] ∧ client = .result random.secret t ∧
      up = [] ∧ down = [] := by
  cases h
  exact ⟨rfl, rfl, rfl, rfl, rfl, rfl⟩

theorem Phase.of_returned (h : Phase conf ws (.returned server uid secret) client up down handled) :
    secret = random.secret ∧ handled = [.auth t (some (server, uid))] ∧
      client = .result random.secret t ∧ up = [] ∧ down = [] := by
  cases h
  exact ⟨rfl, rfl, rfl, rfl, rfl⟩

theorem Phase.of_login (h : Phase conf ws (.login server uid secret) client up down handled) :
    secret = random.secret ∧ handled = [.auth t (some (server, uid))] ∧
      client = .result random.secret t ∧ up = [] ∧ down = [] := by
  cases h
  exact ⟨rfl, rfl, rfl, rfl, rfl⟩

theorem Phase.of_refused (h : Phase conf ws .refused client up down handled) :
    handled = [.auth t none] ∧ client = .result random.secret t ∧ up = [] ∧ down = [] := by
  cases h
  exact ⟨rfl, rfl, rfl, rfl⟩

theorem Phase.of_done {reply subid : Text}
    (h : Phase conf ws server' (.done secret token reply subid) up down handled) :
    Reply conf secret t handled reply ∧ ∃ server uid,
      handled = [.auth t (some (server, uid)), .login server uid secret (some subid)] := by
  cases h with
  | done => exact ⟨.ok _, _, _, rfl⟩

theorem Phase.of_failed {was : Client} {line : Text}
    (h : Phase conf ws server' (.failed was line) up down handled) :
    ∃ secret, was = .result secret t ∧ Reply conf secret t handled line ∧
      accepted line = false := by
  cases h with
  | failed h hno => exact ⟨_, rfl, h, hno⟩

/-- The client waits for no line. -/
theorem Phase.of_end (h : Phase conf ws server' client up down handled)
    (hend : client.reads = false) :
    ∃ secret reply, Reply conf secret t handled reply ∧
      ((∃ subid, client = .done secret t reply subid) ∨
        client = .failed (.result secret t) reply) := by
  cases h with
  | done err => exact ⟨_, _, .ok err, .inl ⟨_, rfl⟩⟩
  | failed h => exact ⟨_, _, h, .inr rfl⟩
  | _ => cases hend

theorem Phase.token_eq (h : Phase conf ws server' client up down handled) :
    client.token = some t := by
  cases h <;> rfl

theorem Talking.open (h : Talking conf c) (hserver : c.server = .start) :
    Talking conf c.open := by
  have hopen : c.hung = false → c.open = { c with
      server := .handshake (lrandomkey c.random.challenge)
      down := c.down.write (c.random.hello ++ [newline]) } := by
    intro hhung
    have hconnected : c.connected = true := by simp [Conn.connected, hhung]
    simp [Conn.open, hconnected, Random.hello]
  refine h.turn ?_ ?_ ?_ ?_ fun hhung t ws hp => ?_
  · unfold Conn.open
    split <;> rfl
  · unfold Conn.open
    split <;> rfl
  · unfold Conn.open
    split <;> rfl
  · unfold Conn.open
    split <;> rfl
  rw [hserver] at hp
  generalize hu : c.up.all = u, hd : c.down.all = d, hh : c.handled = l, hc : c.client = cl at hp
  cases hp
  rw [hopen hhung]
  exact Phase.hello.of_eq rfl rfl rfl (by rw [Pipe.all_write, hd, List.nil_append]) hh.symm

theorem Talking.authorize (h : Talking conf c) (result : Option (V × V)) :
    Talking conf (c.authorize result) := by
  unfold Conn.authorize
  split
  · rename_i token secret hserver
    refine h.turn rfl rfl rfl rfl fun _ t ws hp => ?_
    obtain ⟨rfl, rfl, hhandled, hclient, hup, hdown⟩ := (hserver ▸ hp).of_auth
    cases result with
    | none => exact Phase.refused.of_eq rfl hclient.symm hup.symm hdown.symm (by rw [hhandled]; rfl)
    | some r =>
      exact Phase.returned.of_eq rfl hclient.symm hup.symm hdown.symm (by rw [hhandled]; rfl)
  · exact h

/-! ## All steps -/

def World.Talking (conf : Conf) (w : World V) : Prop := ∀ c ∈ w.conns, Login.Talking conf c

theorem World.Talking.set (h : w.Talking conf) (i : Nat) (hc : Login.Talking conf c)
    (user_login : V → Bool) : Talking conf ⟨user_login, w.conns.set i c⟩ := by
  intro c' hc'
  obtain hmem | rfl := List.mem_or_eq_of_mem_set hc'
  · exact h c' hmem
  · exact hc

variable [DecidableEq V]

theorem World.Talking.serve (h : w.Talking conf) (i : Nat) (hc : Login.Talking conf c) :
    Talking conf (w.serve conf i c) := by
  unfold World.serve
  split <;> rename_i hserver
  · exact h.set i (hc.open hserver) _
  · exact h.set i hc.serverRead _
  · exact h.set i hc.serverRead _
  · exact h.set i hc.serverRead _
  · refine h.set i (hc.close fun t ws hp => ?_) _
    obtain ⟨hhandled, hclient, hup, hdown⟩ := (hserver ▸ hp).of_refused
    rw [hhandled]
    exact ⟨.unauthorized, hclient, hup, hdown⟩
  · rename_i server uid secret
    have hlogin : Login.Talking conf { c with server := .login server uid secret } := by
      refine hc.turn rfl rfl rfl rfl fun _ t ws hp => ?_
      obtain ⟨rfl, hhandled, hclient, hup, hdown⟩ := (hserver ▸ hp).of_returned
      exact Phase.login.of_eq rfl hclient.symm hup.symm hdown.symm hhandled.symm
    split
    · exact h.set i hlogin _
    split
    · rename_i hmulti _
      refine h.set i (hc.close fun t ws hp => ?_) _
      obtain ⟨-, hhandled, hclient, hup, hdown⟩ := (hserver ▸ hp).of_returned
      rw [hhandled]
      exact ⟨.already (by simpa using hmulti), hclient, hup, hdown⟩
    · exact h.set i hlogin _
  · exact h
  · exact h
  · exact h

theorem World.Talking.finish (h : w.Talking conf) (i : Nat) (hc : Login.Talking conf c)
    (err : Option Text) : Talking conf (w.finish i c err) := by
  unfold World.finish
  split
  · rename_i server uid secret hserver
    refine h.set i (hc.close fun t ws hp => ?_) _
    obtain ⟨rfl, hhandled, hclient, hup, hdown⟩ := (hserver ▸ hp).of_login
    rw [hhandled]
    cases err with
    | none => exact ⟨.forbidden, hclient, hup, hdown⟩
    | some err => exact ⟨.ok err, hclient, hup, hdown⟩
  · exact h

theorem World.Talking.step {w' : World V} {i : Nat} (h : w.Talking conf) (hi : w.conns[i]? = some c)
    (hstep : Step conf w i c w') : Talking conf w' := by
  have hc : Login.Talking conf c := h c (List.mem_of_getElem? hi)
  cases hstep with
  | serve => exact h.serve i hc
  | read hreads => exact h.set i (hc.clientRead hreads) _
  | up n => exact h.set i (hc.deliverUp n) _
  | down n => exact h.set i (hc.deliverDown n) _
  | send hstranger text =>
    have hc' : Login.Talking conf { c with up := c.up.write text } := .inl hstranger
    exact h.set i hc' _
  | hangup hstranger n =>
    have hc' : Login.Talking conf (c.hangup n) := .inl hstranger
    exact h.set i hc' _
  | authorize result => exact h.set i (hc.authorize result) _
  | finish err => exact h.finish i hc err

theorem World.Talking.exec (h : w.Talking conf) (e : Event V) (hok : e.ok w) :
    Talking conf (w.exec conf e) := by
  obtain ⟨random, client, rfl⟩ | hsame | ⟨i, c, hi, hstep⟩ := exec_cases conf w e
  · intro c hc
    obtain hold | hnew := List.mem_append.mp hc
    · exact h c hold
    obtain rfl := List.mem_singleton.mp hnew
    obtain rfl | ⟨token, rfl, hshort⟩ := hok
    · exact .inl rfl
    · obtain ⟨ws⟩ := exists_words random token
      exact .inr ⟨rfl, token, hshort, ws, .start⟩
  · rw [hsame]
    exact h
  · exact h.step hi hstep

theorem talking (h : Reached conf w) : w.Talking conf :=
  h.invariant (by simp [World.Talking, World.empty]) fun _ e h hok => h.exec e hok

/-- Whatever the order of the steps of all connections: `auth_handler` is called with the token of
the client, what it gives and the secret of the client go to `login_handler`, the last line that the
client reads is the reply to what the handlers have given for its token, and only a line that is no
`200` makes it fail. -/
theorem agreement (h : Reached conf w) {i : Nat} (hi : w.conns[i]? = some c)
    (hclient : c.client ≠ .stranger) : ∃ t, c.client.token = some t ∧
      (∀ token secret, c.server = .auth token secret →
        token = t ∧ c.client = .result secret t ∧ c.handled = []) ∧
      (∀ server uid secret,
        c.server = .returned server uid secret ∨ c.server = .login server uid secret →
          c.handled = [.auth t (some (server, uid))] ∧ c.client = .result secret t) ∧
      (c.server = .refused → c.handled = [.auth t none]) ∧
      (∀ secret token reply subid, c.client = .done secret token reply subid →
        Reply conf secret t c.handled reply ∧ ∃ server uid,
          c.handled = [.auth t (some (server, uid)), .login server uid secret (some subid)]) ∧
      ∀ was line, c.client = .failed was line → ∃ secret,
        was = .result secret t ∧ Reply conf secret t c.handled line ∧ accepted line = false := by
  obtain hstranger | ⟨-, t, -, ws, hp⟩ := talking h c (List.mem_of_getElem? hi)
  · exact absurd hstranger hclient
  refine ⟨t, hp.token_eq, ?_, ?_, ?_, ?_, ?_⟩
  · rintro token secret hserver
    obtain ⟨rfl, rfl, hhandled, hres, -, -⟩ := (hserver ▸ hp).of_auth
    exact ⟨rfl, hres, hhandled⟩
  · rintro server uid secret (hserver | hserver)
    · obtain ⟨rfl, hhandled, hres, -, -⟩ := (hserver ▸ hp).of_returned
      exact ⟨hhandled, hres⟩
    · obtain ⟨rfl, hhandled, hres, -, -⟩ := (hserver ▸ hp).of_login
      exact ⟨hhandled, hres⟩
  · intro hserver
    exact (hserver ▸ hp).of_refused.1
  · intro secret token reply subid hdone
    exact (hdone ▸ hp).of_done
  · intro was line hfailed
    exact (hfailed ▸ hp).of_failed

def sampleRandom : Random := ⟨.replicate 8 1, .replicate 8 2, .replicate 8 3⟩

def sampleConf : Conf := ⟨false⟩

/-- After some steps of two connections, the second one of a stranger. -/
def sampleWorld : World Nat :=
  [.connect sampleRandom (.challenge [104, 105]), .connect sampleRandom .stranger, .serve 0,
    .send 1 [33, 10], .down 0 5, .hangup 1 1, .serve 1].foldl (World.exec sampleConf) .empty

theorem sample_reached : Reached sampleConf sampleWorld :=
  Machine.Reach.run .init _
    ⟨.inr ⟨_, rfl, by decide⟩, .inl rfl, trivial, trivial, trivial, trivial, trivial, trivial⟩

theorem agreement_sample : ∃ c, sampleWorld.conns[0]? = some c ∧ ∃ t, c.client.token = some t ∧
    (∀ token secret, c.server = .auth token secret →
      token = t ∧ c.client = .result secret t ∧ c.handled = []) ∧
    (∀ server uid secret,
      c.server = .returned server uid secret ∨ c.server = .login server uid secret →
        c.handled = [.auth t (some (server, uid))] ∧ c.client = .result secret t) ∧
    (c.server = .refused → c.handled = [.auth t none]) ∧
    (∀ secret token reply subid, c.client = .done secret token reply subid →
      Reply sampleConf secret t c.handled reply ∧ ∃ server uid,
        c.handled = [.auth t (some (server, uid)), .login server uid secret (some subid)]) ∧
    ∀ was line, c.client = .failed was line → ∃ secret,
      was = .result secret t ∧ Reply sampleConf secret t c.handled line ∧ accepted line = false :=
  ⟨_, rfl, agreement sample_reached (i := 0) rfl (by intro h; cases h)⟩

end SkynetHotfix.Login
