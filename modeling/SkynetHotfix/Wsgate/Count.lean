import SkynetHotfix.Lib.Machine
import SkynetHotfix.Wsgate.Basic
import Mathlib.Data.List.Nodup

/-!
# The number of clients

The gate with the socket driver, whose events come in any order: `opened` are
the connections that were accepted and not closed since, by the driver or by
the gate. `closeclient` drops a connection and leaves `client_number`
(`Leaks`), and no other step takes the two apart (`exec_change`). So the number
is right as long as no step leaks, and never again after one that does
(`client_number_counts`).
-/

namespace SkynetHotfix.Wsgate

open Function (update)

structure System where
  gate : Gate
  /-- The sockets of the driver. -/
  alive : List Nat
  /-- The accepted connections that have not been closed. -/
  opened : List Nat

def System.init : System := ⟨Gate.init, [], []⟩

variable (digest : String → String)

/-- The sockets after an event: a socket that listens outlives its errors. -/
def aliveAfter (g : Gate) (out : List Out) (alive : List Nat) : Event → List Nat
  | .listen _ _ id => if Out.start id ∈ out then id :: alive else alive
  | .open fd _ => fd :: alive
  | .close fd => alive.filter (· ≠ fd)
  | .error fd _ => if g.socket = some fd then alive else alive.filter (· ≠ fd)
  | _ => alive

/-- The connections after an event and what the gate asked for. -/
def openedAfter (out : List Out) (opened : List Nat) (e : Event) : List Nat :=
  (match e with
    | .open fd _ => fd :: opened
    | .close fd => opened.filter (· ≠ fd)
    | .error fd _ => opened.filter (· ≠ fd)
    | _ => opened).filter fun fd => Out.close fd ∉ out

def exec (s : System) (e : Event) : System :=
  let r := handle digest s.gate e
  { gate := r.1, alive := aliveAfter s.gate r.2 s.alive e, opened := openedAfter r.2 s.opened e }

/-- What the driver does: a new socket has a new id, and only a socket that there is closes. -/
def Allowed (s : System) : Event → Prop
  | .listen _ _ id => id ∉ s.alive
  | .open fd _ => fd ∉ s.alive ∧ s.gate.socket ≠ none
  | .close fd => fd ∈ s.alive
  | .error fd _ => fd ∈ s.alive
  | _ => True

instance : ∀ s e, Decidable (Allowed s e)
  | s, .listen _ _ id => inferInstanceAs (Decidable (id ∉ s.alive))
  | s, .open fd _ => inferInstanceAs (Decidable (fd ∉ s.alive ∧ s.gate.socket ≠ none))
  | s, .close fd => inferInstanceAs (Decidable (fd ∈ s.alive))
  | s, .error fd _ => inferInstanceAs (Decidable (fd ∈ s.alive))
  | _, .shut | _, .data .. | _, .warning .. | _, .forward .. | _, .accept _ | _, .kick _ =>
    inferInstanceAs (Decidable True)

/-- A step that closes a connection by `closeclient`: a kick, or a handshake that fails. -/
def Leaks (s : System) : Event → Prop
  | .kick fd => s.gate.connection fd ≠ none
  | .data fd msg => ∃ c, s.gate.connection fd = some c ∧ c.isconnect = true ∧
      c.iswebsocket_handeshake = 1 ∧
      (checkwebsocket_valid digest (parse_httpheader msg) none).isOk = false
  | _ => False

/-- The number is that of the connections, and none is refused below `maxclient`. -/
structure Counts (s : System) : Prop where
  number : s.gate.client_number = s.opened.length
  admits : ∀ fd addr maxclient, Allowed s (.open fd addr) → s.gate.maxclient = some maxclient →
    s.opened.length < maxclient → fd ∈ (exec digest s (.open fd addr)).opened

/-- What the tables and the driver agree on in every state. -/
structure Inv (s : System) : Prop where
  opened : ∀ fd, fd ∈ s.opened ↔ (s.gate.connection fd).isSome
  nodup : s.opened.Nodup
  alive : ∀ fd ∈ s.opened, fd ∈ s.alive
  socket : ∀ fd, s.gate.socket = some fd → fd ∈ s.alive ∧ fd ∉ s.opened
  maxclient : s.gate.socket ≠ none → s.gate.maxclient ≠ none

/-- What a step does to the connections and their number, which is `k` too high then. -/
inductive Change (k : Nat) (s s' : System) : Prop
  | same (hk : k = 0)
      (hc : ∀ x, (s'.gate.connection x).isSome = (s.gate.connection x).isSome)
      (hn : s'.gate.client_number = s.gate.client_number) (ho : s'.opened = s.opened)
  | opens (hk : k = 0) (fd : Nat) (hfd : fd ∉ s.opened)
      (hc : ∀ x, (s'.gate.connection x).isSome ↔ x = fd ∨ (s.gate.connection x).isSome)
      (hn : s'.gate.client_number = s.gate.client_number + 1) (ho : s'.opened = fd :: s.opened)
  | closes (fd : Nat) (hfd : fd ∈ s.opened)
      (hc : ∀ x, (s'.gate.connection x).isSome ↔ x ≠ fd ∧ (s.gate.connection x).isSome)
      (hn : s'.gate.client_number = s.gate.client_number - 1 + k)
      (ho : s'.opened = s.opened.filter (· ≠ fd))

/-! ## Handlers of `wsgate.lua` -/

/-- The fields of `wsgateserver.lua` are not those of `wsgate.lua`. -/
structure SameServer (g g' : Gate) : Prop where
  connection : g'.connection = g.connection
  client_number : g'.client_number = g.client_number
  socket : g'.socket = g.socket
  maxclient : g'.maxclient = g.maxclient

theorem SameServer.refl (g : Gate) : SameServer g g := ⟨rfl, rfl, rfl, rfl⟩

theorem unforward_same (c : Client) (g : Gate) : SameServer g (unforward c g) := by
  rw [unforward]
  split
  · exact .refl g
  · exact ⟨rfl, rfl, rfl, rfl⟩

theorem handler_close_fd_same (fd : Nat) (g : Gate) : SameServer g (handler.close_fd fd g) := by
  rw [handler.close_fd]
  split
  · exact .refl g
  · rename_i c _
    exact ⟨(unforward_same c g).connection, (unforward_same c g).client_number,
      (unforward_same c g).socket, (unforward_same c g).maxclient⟩

theorem forward_same (source fd : Nat) (client address : Option Nat) (g : Gate) :
    SameServer g (CMD.forward source fd client address g).1 := by
  rw [CMD.forward]
  split
  · exact .refl g
  · rename_i c _
    exact ⟨(unforward_same c g).connection, (unforward_same c g).client_number,
      (unforward_same c g).socket, (unforward_same c g).maxclient⟩

theorem accept_same (fd : Nat) (g : Gate) : SameServer g (CMD.accept fd g).1 := by
  rw [CMD.accept]
  split
  · exact .refl g
  · exact unforward_same _ g

/-- Only `closeclient`, `MSG.open`, `MSG.error` and `CMD.close` close sockets. -/
theorem openclient_not_close (fd x : Nat) (g : Gate) : Out.close x ∉ openclient fd g := by
  rw [openclient]
  repeat' split
  all_goals simp

theorem message_not_close (fd x : Nat) (msg : List Char) (g : Gate) :
    Out.close x ∉ handler.message fd msg g := by
  rw [handler.message]
  repeat' split
  all_goals simp

theorem forward_not_close (source fd x : Nat) (client address : Option Nat) (g : Gate) :
    Out.close x ∉ (CMD.forward source fd client address g).2 := by
  rw [CMD.forward]
  split
  · simp
  · exact openclient_not_close _ _ _

theorem accept_not_close (fd x : Nat) (g : Gate) : Out.close x ∉ (CMD.accept fd g).2 := by
  rw [CMD.accept]
  split
  · simp
  · exact openclient_not_close _ _ _

/-! ## Steps -/

/-- What is closed elsewhere is not taken out. -/
theorem openedAfter_eq {out : List Out} {opened : List Nat} (h : ∀ fd ∈ opened, Out.close fd ∉ out) :
    (opened.filter fun fd => Out.close fd ∉ out) = opened :=
  List.filter_eq_self.mpr fun fd hfd => decide_eq_true (h fd hfd)

/-- Closing by `closeclient`. -/
theorem closes_connection {s : System} (hI : Inv s) {fd : Nat} {c : Conn}
    (hc : s.gate.connection fd = some c) {out : List Out} {alive : List Nat}
    (hout : ∀ x, Out.close x ∈ out ↔ x = fd) :
    Change 1 s ⟨{ s.gate with connection := update s.gate.connection fd none }, alive,
      s.opened.filter fun x => Out.close x ∉ out⟩ := by
  refine .closes fd ((hI.opened fd).mpr (by rw [hc]; rfl)) (fun x => ?_) (by simp) ?_
  · by_cases hx : x = fd
    · subst hx
      simp
    · simp [hx]
  · simp [hout]

variable {s : System} {e : Event}

theorem exec_leaks (hI : Inv s) (h : Leaks digest s e) : Change 1 s (exec digest s e) := by
  cases e with
  | kick fd =>
    obtain ⟨c, hc⟩ := Option.ne_none_iff_exists'.mp h
    have hr : handle digest s.gate (.kick fd) =
        ({ s.gate with connection := update s.gate.connection fd none }, [.close fd]) := by
      rw [handle, CMD.kick, closeclient, hc]
    rw [exec, hr]
    exact closes_connection hI hc (by simp)
  | data fd msg =>
    obtain ⟨c, hc, hconn, hhand, hbad⟩ := h
    cases hv : checkwebsocket_valid digest (parse_httpheader msg) none with
    | ok result =>
      rw [hv] at hbad
      cases hbad
    | error r =>
      have hr : handle digest s.gate (.data fd msg) =
          ({ s.gate with connection := update s.gate.connection fd none },
            [.respond fd r.1 r.2, .close fd]) := by
        rw [handle, dispatch_msg, hc]
        dsimp only
        rw [if_pos hconn, if_pos hhand, checkwebsocket, hv]
        dsimp only
        rw [closeclient, hc]
      rw [exec, hr]
      exact closes_connection hI hc (by simp)
  | _ => exact h.elim

theorem opened_filter_ne {fd : Nat} (hfd : fd ∉ s.opened) : s.opened.filter (· ≠ fd) = s.opened :=
  List.filter_eq_self.mpr fun _ hx => decide_eq_true fun h => hfd (h ▸ hx)

/-- A socket that the driver closes. -/
theorem closes_socket (hI : Inv s) {fd : Nat} {g : Gate} {out : List Out} {alive : List Nat}
    (hg : SameServer s.gate g) (hout : ∀ x, Out.close x ∉ out) :
    Change 0 s ⟨close_fd fd g, alive,
      (s.opened.filter (· ≠ fd)).filter fun x => Out.close x ∉ out⟩ := by
  rw [openedAfter_eq fun x _ => hout x, close_fd, hg.connection]
  cases hc : s.gate.connection fd with
  | none =>
    have hfd : fd ∉ s.opened := fun h => by simpa [hc] using (hI.opened fd).mp h
    exact .same rfl (fun x => by rw [hg.connection]) hg.client_number (opened_filter_ne hfd)
  | some c =>
    refine .closes fd ((hI.opened fd).mpr (by rw [hc]; rfl)) (fun x => ?_)
      (by simp [hg.client_number]) rfl
    by_cases hx : x = fd
    · subst hx
      simp
    · simp [hx]

/-- A step that opens no connection and closes none. -/
theorem Change.quiet {g : Gate} {out : List Out} {alive : List Nat}
    (hc : ∀ x, (g.connection x).isSome = (s.gate.connection x).isSome)
    (hn : g.client_number = s.gate.client_number) (hout : ∀ x ∈ s.opened, Out.close x ∉ out) :
    Change 0 s ⟨g, alive, s.opened.filter fun x => Out.close x ∉ out⟩ :=
  .same rfl hc hn (openedAfter_eq hout)

theorem exec_shut (hI : Inv s) : Change 0 s (exec digest s .shut) := by
  rw [exec, handle, CMD.close]
  split
  · exact .quiet (fun _ => rfl) rfl (by simp)
  · rename_i socket hs
    refine .quiet (fun _ => rfl) rfl fun x hx h => ?_
    cases List.mem_singleton.mp h
    exact (hI.socket _ hs).2 hx

theorem exec_open (hI : Inv s) {fd : Nat} {addr : String} (ha : Allowed s (.open fd addr)) :
    Change 0 s (exec digest s (.open fd addr)) := by
  obtain ⟨hfd, hsocket⟩ := ha
  have hfd : fd ∉ s.opened := fun h => hfd (hI.alive fd h)
  obtain ⟨maxclient, hm⟩ := Option.ne_none_iff_exists'.mp (hI.maxclient hsocket)
  rw [exec, handle, MSG.open, hm]
  dsimp only
  split
  · refine .same rfl (fun _ => rfl) rfl ?_
    have hself : (s.opened.filter fun x => decide (Out.close x ∉ [Out.close fd])) = s.opened := by
      refine openedAfter_eq fun x hx h => ?_
      cases List.mem_singleton.mp h
      exact hfd hx
    simpa [openedAfter] using hself
  · refine .opens rfl fd hfd (fun x => ?_) rfl ?_
    · by_cases hx : x = fd
      · subst hx
        simp [handler.connect]
      · simp [handler.connect, hx]
    · refine openedAfter_eq fun x _ => ?_
      split <;> simp [handler.connect]

theorem exec_data {fd : Nat} {msg : List Char} (hl : ¬ Leaks digest s (.data fd msg)) :
    Change 0 s (exec digest s (.data fd msg)) := by
  rw [exec, handle, dispatch_msg]
  cases hc : s.gate.connection fd with
  | none => exact .quiet (fun _ => rfl) rfl (by simp [dropped])
  | some c =>
    dsimp only
    split
    · rename_i hconn
      split
      · rename_i hhand
        cases hv : checkwebsocket_valid digest (parse_httpheader msg) none with
        | error r => exact absurd ⟨c, hc, hconn, hhand, by rw [hv]; rfl⟩ hl
        | ok result =>
          rw [checkwebsocket, hv]
          refine .quiet (fun x => ?_) rfl (by simp)
          by_cases hx : x = fd
          · subst hx
            simp [hc]
          · simp [hx]
      · exact .quiet (fun _ => rfl) rfl fun x _ => message_not_close _ _ _ _
    · exact .quiet (fun _ => rfl) rfl (by simp [dropped])

/-- The end of a socket: of the one that listens, or of a connection's. -/
theorem exec_close (hI : Inv s) (fd : Nat) : Change 0 s (exec digest s (.close fd)) := by
  rw [exec, handle, MSG.close]
  split
  · exact closes_socket hI (handler_close_fd_same fd s.gate) (by simp [handler.disconnect])
  · rename_i hs
    refine .same rfl (fun _ => rfl) rfl ?_
    exact (openedAfter_eq (by simp)).trans (opened_filter_ne (hI.socket fd (not_not.mp hs)).2)

theorem exec_error (hI : Inv s) (fd : Nat) (msg : String) :
    Change 0 s (exec digest s (.error fd msg)) := by
  rw [exec, handle, MSG.error]
  split
  · rename_i hs
    have hfd := (hI.socket fd hs).2
    refine .same rfl (fun _ => rfl) rfl ?_
    simp only [openedAfter, opened_filter_ne hfd]
    refine openedAfter_eq fun x hx h => ?_
    simp at h
    exact hfd (h ▸ hx)
  · exact closes_socket hI (handler_close_fd_same fd s.gate) (by simp [handler.error])

theorem exec_change (hI : Inv s) (ha : Allowed s e) (hl : ¬ Leaks digest s e) :
    Change 0 s (exec digest s e) := by
  cases e with
  | listen source conf id =>
    rw [exec, handle, CMD.open]
    split
    · exact .quiet (fun _ => rfl) rfl (by simp)
    · exact .quiet (fun _ => rfl) rfl (by simp)
  | shut => exact exec_shut digest hI
  | «open» fd addr => exact exec_open digest hI ha
  | data fd msg => exact exec_data digest hl
  | close fd => exact exec_close digest hI fd
  | error fd msg => exact exec_error digest hI fd msg
  | warning fd size => exact .quiet (fun _ => rfl) rfl (by simp [handle, MSG.warning])
  | forward source fd client address =>
    have h := forward_same source fd client address s.gate
    exact .quiet (fun x => by rw [handle, h.connection]) h.client_number
      fun x _ => forward_not_close _ _ _ _ _ _
  | accept fd =>
    have h := accept_same fd s.gate
    exact .quiet (fun x => by rw [handle, h.connection]) h.client_number
      fun x _ => accept_not_close _ _ _
  | kick fd =>
    have hc : s.gate.connection fd = none := not_not.mp hl
    rw [exec, handle, CMD.kick, closeclient, hc]
    exact .quiet (fun _ => rfl) rfl (by simp)

/-! ## Runs -/

theorem close_fd_socket {g g' : Gate} (fd : Nat) (h : SameServer g g') :
    (close_fd fd g').socket = g.socket ∧ (close_fd fd g').maxclient = g.maxclient := by
  rw [close_fd]
  split <;> exact ⟨h.socket, h.maxclient⟩

theorem closeclient_socket (fd : Nat) (g : Gate) :
    (closeclient fd g).1.socket = g.socket ∧ (closeclient fd g).1.maxclient = g.maxclient := by
  rw [closeclient]
  split <;> exact ⟨rfl, rfl⟩

/-- Only `CMD.open` and the end of the socket that listens change it. -/
theorem handle_socket (g : Gate) (e : Event) :
    ((handle digest g e).1.socket = g.socket ∧ (handle digest g e).1.maxclient = g.maxclient) ∨
    (∃ source conf id, e = .listen source conf id ∧ (handle digest g e).1.socket = some id ∧
      (handle digest g e).1.maxclient ≠ none ∧ Out.start id ∈ (handle digest g e).2) ∨
    (∃ fd, e = .close fd ∧ (handle digest g e).1.socket = none) := by
  cases e with
  | listen source conf id =>
    rw [handle, CMD.open]
    split
    · exact .inr (.inl ⟨source, conf, id, rfl, rfl, by simp, by simp⟩)
    · exact .inl ⟨rfl, rfl⟩
  | shut => exact .inl ⟨rfl, rfl⟩
  | «open» fd addr =>
    rw [handle, MSG.open]
    repeat' split
    all_goals exact .inl ⟨rfl, rfl⟩
  | data fd msg =>
    refine .inl ?_
    rw [handle, dispatch_msg]
    split
    · exact ⟨rfl, rfl⟩
    · split
      · split
        · rw [checkwebsocket]
          split
          · rename_i h
            split at h
            · cases h
            · cases h
              exact ⟨rfl, rfl⟩
          · rename_i h
            split at h
            · cases h
              exact closeclient_socket fd g
            · cases h
        · exact ⟨rfl, rfl⟩
      · exact ⟨rfl, rfl⟩
  | close fd =>
    rw [handle, MSG.close]
    split
    · exact .inl (close_fd_socket fd (handler_close_fd_same fd g))
    · exact .inr (.inr ⟨fd, rfl, rfl⟩)
  | error fd msg =>
    rw [handle, MSG.error]
    split
    · exact .inl ⟨rfl, rfl⟩
    · exact .inl (close_fd_socket fd (handler_close_fd_same fd g))
  | warning fd size => exact .inl ⟨rfl, rfl⟩
  | forward source fd client address =>
    have h := forward_same source fd client address g
    exact .inl ⟨h.socket, h.maxclient⟩
  | accept fd =>
    have h := accept_same fd g
    exact .inl ⟨h.socket, h.maxclient⟩
  | kick fd => exact .inl (closeclient_socket fd g)

theorem mem_openedAfter {out : List Out} {opened : List Nat} {x : Nat}
    (h : x ∈ openedAfter out opened e) :
    (x ∈ opened ∧ e ≠ .close x ∧ ∀ msg, e ≠ .error x msg) ∨ ∃ addr, e = .open x addr := by
  have h := List.mem_of_mem_filter h
  cases e with
  | «open» fd addr =>
    rcases List.mem_cons.mp h with rfl | h
    · exact .inr ⟨addr, rfl⟩
    · exact .inl ⟨h, by simp, by simp⟩
  | close fd =>
    obtain ⟨h, hne⟩ := List.mem_filter.mp h
    exact .inl ⟨h, fun e => of_decide_eq_true hne (Event.close.inj e).symm, by simp⟩
  | error fd msg =>
    obtain ⟨h, hne⟩ := List.mem_filter.mp h
    exact .inl ⟨h, by simp, fun _ e => of_decide_eq_true hne (Event.error.inj e).1.symm⟩
  | _ => exact .inl ⟨h, by simp, by simp⟩

/-- A socket is there until it closes or fails. -/
theorem mem_aliveAfter {g : Gate} {out : List Out} {alive : List Nat} {x : Nat} (h : x ∈ alive)
    (hc : e ≠ .close x) (he : g.socket = some x ∨ ∀ msg, e ≠ .error x msg) :
    x ∈ aliveAfter g out alive e := by
  cases e with
  | listen source conf id =>
    rw [aliveAfter]
    split
    · exact List.mem_cons_of_mem _ h
    · exact h
  | «open» fd addr => exact List.mem_cons_of_mem _ h
  | close fd =>
    refine List.mem_filter.mpr ⟨h, decide_eq_true ?_⟩
    rintro rfl
    exact hc rfl
  | error fd msg =>
    rw [aliveAfter]
    split
    · exact h
    · rename_i hs
      refine List.mem_filter.mpr ⟨h, decide_eq_true ?_⟩
      rintro rfl
      exact he.elim hs fun he => he msg rfl
  | _ => exact h

/-- The tables and the driver agree after a step. -/
theorem exec_inv (hI : Inv s) (ha : Allowed s e) {k : Nat} (hch : Change k s (exec digest s e)) :
    Inv (exec digest s e) := by
  have halive : ∀ x ∈ (exec digest s e).opened, x ∈ (exec digest s e).alive := by
    intro x hx
    rcases mem_openedAfter hx with ⟨hx, hc, he⟩ | ⟨addr, rfl⟩
    · exact mem_aliveAfter (hI.alive x hx) hc (.inr he)
    · exact List.mem_cons_self
  have hsocket : ∀ x, (exec digest s e).gate.socket = some x →
      x ∈ (exec digest s e).alive ∧ x ∉ (exec digest s e).opened := by
    intro x hx
    rcases handle_socket digest s.gate e with ⟨hs, -⟩ | ⟨source, conf, id, rfl, hs, -, hout⟩ |
        ⟨fd, rfl, hs⟩
    · have hs₀ : s.gate.socket = some x := hs.symm.trans hx
      obtain ⟨hxa, hxo⟩ := hI.socket x hs₀
      have hc : e ≠ .close x := by
        rintro rfl
        have hx : (handle digest s.gate (.close x)).1.socket = some x := hx
        rw [handle, MSG.close, if_neg (not_not.mpr hs₀)] at hx
        cases hx
      refine ⟨mem_aliveAfter hxa hc (.inl hs₀), fun h => ?_⟩
      rcases mem_openedAfter h with ⟨h, -⟩ | ⟨addr, rfl⟩
      · exact hxo h
      · exact ha.1 hxa
    · cases hs.symm.trans hx
      refine ⟨?_, fun h => ?_⟩
      · rw [exec, aliveAfter, if_pos hout]
        exact List.mem_cons_self
      · rcases mem_openedAfter (e := .listen source conf x) h with ⟨h, -⟩ | ⟨addr, h⟩
        · exact ha (hI.alive _ h)
        · cases h
    · cases hs.symm.trans hx
  have hmax : (exec digest s e).gate.socket ≠ none → (exec digest s e).gate.maxclient ≠ none := by
    intro h
    rcases handle_socket digest s.gate e with ⟨hs, hm⟩ | ⟨_, _, _, -, -, hm, -⟩ | ⟨fd, -, hs⟩
    · intro hnone
      exact hI.maxclient (fun hs' => h (hs.trans hs')) (hm.symm.trans hnone)
    · exact hm
    · exact absurd hs h
  cases hch with
  | same hk hc hn ho =>
    exact ⟨fun x => by rw [ho, hc, hI.opened], ho ▸ hI.nodup, halive, hsocket, hmax⟩
  | opens hk fd hfd hc hn ho =>
    refine ⟨fun x => ?_, ho ▸ List.nodup_cons.mpr ⟨hfd, hI.nodup⟩, halive, hsocket, hmax⟩
    rw [ho, hc, List.mem_cons, hI.opened]
  | closes fd hfd hc hn ho =>
    refine ⟨fun x => ?_, ho ▸ hI.nodup.filter _, halive, hsocket, hmax⟩
    rw [ho, hc, List.mem_filter, hI.opened, decide_eq_true_iff, and_comm]

theorem inv_init : Inv System.init where
  opened fd := by simp [System.init, Gate.init]
  nodup := List.nodup_nil
  alive _ h := by cases h
  socket _ h := by cases h
  maxclient h := absurd rfl h

/-- A step that leaks makes the number too high by one, and another leaves the difference. -/
theorem Change.difference {k : Nat} {s s' : System} (hI : Inv s) (h : Change k s s') :
    s'.gate.client_number - s'.opened.length =
      s.gate.client_number - s.opened.length + k := by
  cases h with
  | same hk hc hn ho => rw [hn, ho, hk]; simp
  | opens hk fd hfd hc hn ho =>
    rw [hn, ho, hk, List.length_cons]
    push_cast
    omega
  | closes fd hfd hc hn ho =>
    have hlen : s.opened.length = (s.opened.filter (· ≠ fd)).length + 1 := by
      have herase : s.opened.filter (· ≠ fd) = s.opened.erase fd := by
        rw [hI.nodup.erase_eq_filter]
        exact List.filter_congr fun x _ => by by_cases hx : x = fd <;> simp [hx]
      have hpos := List.length_pos_of_mem hfd
      rw [herase, List.length_erase_of_mem hfd]
      omega
    rw [hn, ho, hlen]
    push_cast
    omega

/-- No step makes the number lower than it should be, or less too high. -/
theorem exec_step (hI : Inv s) (ha : Allowed s e) : Inv (exec digest s e) ∧
    s.gate.client_number - s.opened.length ≤
      (exec digest s e).gate.client_number - (exec digest s e).opened.length := by
  obtain ⟨k, hch⟩ : ∃ k, Change k s (exec digest s e) := by
    by_cases hl : Leaks digest s e
    · exact ⟨1, exec_leaks digest hI hl⟩
    · exact ⟨0, exec_change digest hI ha hl⟩
  have hd := hch.difference hI
  exact ⟨exec_inv digest hI ha hch, by omega⟩

/-- The number that is right lets clients in below `maxclient`. -/
theorem counts_of_number (hn : s.gate.client_number = s.opened.length) : Counts digest s := by
  refine ⟨hn, fun fd addr maxclient ha hm hlt => ?_⟩
  have hout : Out.close fd ∉ (MSG.open fd addr s.gate).2 := by
    rw [MSG.open, hm]
    dsimp only
    rw [if_neg (by omega)]
    split <;> simp [handler.connect]
  exact List.mem_filter.mpr ⟨List.mem_cons_self, decide_eq_true hout⟩

/-- As long as `closeclient` closes no connection, the number is that of the connections and none
is refused below `maxclient`; after a step in which it does, the number stays too high. -/
theorem client_number_counts :
    (∀ s, Machine.Reach (exec digest) (fun s e => Allowed s e ∧ ¬ Leaks digest s e) System.init s →
      Counts digest s) ∧
    ∀ s e, Machine.Reach (exec digest) Allowed System.init s → Leaks digest s e →
      ∀ s', Machine.Reach (exec digest) Allowed (exec digest s e) s' → ¬ Counts digest s' := by
  constructor
  · intro s h
    obtain ⟨-, hn⟩ := h.invariant (I := fun s => Inv s ∧ s.gate.client_number = s.opened.length)
      ⟨inv_init, rfl⟩ fun s e hs ha => by
        have hch := exec_change digest hs.1 ha.1 ha.2
        have hd := hch.difference hs.1
        exact ⟨exec_inv digest hs.1 ha.1 hch, by omega⟩
    exact counts_of_number digest hn
  · intro s e h hl s' h' hcount
    obtain ⟨hI, hle⟩ := h.invariant
      (I := fun s => Inv s ∧ 0 ≤ s.gate.client_number - s.opened.length)
      ⟨inv_init, Int.le_refl 0⟩ fun s e hs ha => by
        have h := exec_step digest hs.1 ha
        exact ⟨h.1, by omega⟩
    have ha : Allowed s e := by
      cases e <;> first | exact hl.elim | trivial
    have hch := exec_leaks digest hI hl
    have hd := hch.difference hI
    obtain ⟨-, hlt⟩ := h'.invariant
      (I := fun s => Inv s ∧ 1 ≤ s.gate.client_number - s.opened.length)
      ⟨exec_inv digest hI ha hch, by omega⟩ fun s e hs ha => by
        have h := exec_step digest hs.1 ha
        exact ⟨h.1, by omega⟩
    have hn := hcount.number
    omega

/-- A client is kicked and its socket closes: the gate, for one client, refuses the next one. -/
theorem kick_leaks : ∃ s, Machine.Reach (exec id) Allowed System.init s ∧ s.opened = [] ∧
    s.gate.client_number = 1 ∧ ¬ Counts id s ∧ s.gate.maxclient = some 1 ∧
    Allowed s (.open 3 "") ∧ (exec id s (.open 3 "")).opened = [] := by
  have h₁ : Machine.Reach (exec id) Allowed System.init System.init := .init
  have h₂ := Machine.Reach.step (.listen 0 ⟨none, some 8888, some 1, false, none⟩ 1) h₁ (by decide)
  have h₃ := Machine.Reach.step (.open 2 "") h₂ (by decide)
  have h₄ := Machine.Reach.step (.kick 2) h₃ (by decide)
  have h₅ := Machine.Reach.step (.close 2) h₄ (by decide)
  exact ⟨_, h₅, by decide, by decide, fun h => absurd h.number (by decide), by decide, by decide,
    by decide⟩

end SkynetHotfix.Wsgate
