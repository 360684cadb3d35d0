import SkynetHotfix.Websocket.Send

/-!
# Messages in fragments

A message comes as one frame or several, with pings and pongs before and
between them. `recv` puts the first fragments together, but a ping makes it
raise (`send_pong` without data), and so do a pong and the last of several
fragments, for which `recv_frame` returns no message. What is left are the
messages in one frame (`recv_message`).
-/

namespace SkynetHotfix.Websocket

open WebSocket (Frame Key LengthForm)

inductive ControlKind
  | ping
  | pong

structure Control where
  kind : ControlKind
  key : Option Key
  payload : List UInt8
  fits : payload.length < 126

def Control.frame (c : Control) : Frame where
  fin := true
  opcode := match c.kind with
    | .ping => 9
    | .pong => 10
  form := .bits7
  key := c.key
  payload := c.payload
  fits := c.fits

/-- A fragment, after the control frames before it. -/
structure Part where
  controls : List Control
  form : LengthForm
  key : Option Key
  payload : List UInt8
  fits : payload.length < form.bound

def Part.frame (p : Part) (fin : Bool) (opcode : Fin 16) : Frame where
  fin := fin
  opcode := opcode
  form := p.form
  key := p.key
  payload := p.payload
  fits := p.fits

/-- The frames of a message in fragments: its opcode is that of the first, and the last is final. -/
def frames (opcode : Fin 16) : Part → List Part → List Frame
  | p, [] => p.controls.map Control.frame ++ [p.frame true opcode]
  | p, q :: ps => p.controls.map Control.frame ++ p.frame false opcode :: frames 0 q ps

/-- The bytes of the frames. -/
def wire (fs : List Frame) : List UInt8 := fs.flatMap Frame.encode

variable {s : Ws} {rest : List UInt8}

theorem wire_cons (f : Frame) (fs : List Frame) : wire (f :: fs) ++ rest =
    f.encode ++ (wire fs ++ rest) := by
  rw [wire, List.flatMap_cons, List.append_assoc, wire]

theorem accepted_control (c : Control) : Accepted c.frame := fun _ => ⟨rfl, rfl⟩

theorem accepted_part (p : Part) (fin : Bool) {opcode : Fin 16} (h : ¬ 8 ≤ opcode) :
    Accepted (p.frame fin opcode) := fun h' => absurd h' h

/-- Pings and pongs make `recv` raise. -/
theorem recvLoop_control (c : Control) (fs : List Frame) (fuel : Nat) (data : List UInt8) :
    ∃ e, recvLoop fuel data { s with input := wire (c.frame :: fs) ++ rest } = .error e := by
  cases fuel with
  | zero => exact ⟨none, rfl⟩
  | succ fuel =>
    rw [wire_cons, recvLoop, recv_frame_encode c.frame (accepted_control c)]
    rcases hc : c.kind with _ | _
    · have hping : takeFrame c.frame.fin c.frame.opcode c.frame.payload
          { s with input := wire fs ++ rest } = .error (some .lengthOfNil) := by
        simp [takeFrame, Control.frame, hc, send_pong, send_frame, bind, Except.bind]
      exact ⟨_, by rw [hping]; rfl⟩
    · have hpong : takeFrame c.frame.fin c.frame.opcode c.frame.payload
          { s with input := wire fs ++ rest } = .ok (.frame true none, { s with
            input := wire fs ++ rest
            handled := s.handled ++ [.on_pong c.payload] }) := by
        simp [takeFrame, Control.frame, hc]
      exact ⟨_, by rw [hpong]; rfl⟩

/-- A fragment that is not the last is added to the data. -/
theorem recvLoop_fragment (p : Part) {opcode : Fin 16} (h : ¬ 8 ≤ opcode) (fs : List Frame)
    (fuel : Nat) (data : List UInt8) :
    recvLoop (fuel + 1) data { s with input := wire (p.frame false opcode :: fs) ++ rest } =
      recvLoop fuel (data ++ p.payload) { s with input := wire fs ++ rest } := by
  rw [wire_cons, recvLoop, recv_frame_encode _ (accepted_part p false h)]
  rfl

/-- So do the fragments after the first, at the last of them. -/
theorem recvLoop_continued (ps : List Part) : ∀ (p : Part) (s : Ws) (fuel : Nat)
    (data : List UInt8),
    ∃ e, recvLoop fuel data { s with input := wire (frames 0 p ps) ++ rest } = .error e := by
  induction ps with
  | nil =>
    intro p s fuel data
    rcases hc : p.controls with _ | ⟨c, cs⟩
    · cases fuel with
      | zero => exact ⟨none, rfl⟩
      | succ fuel =>
        rw [frames, hc, List.map_nil, List.nil_append, wire_cons, recvLoop,
          recv_frame_encode _ (accepted_part p true (by decide))]
        exact ⟨some .concatenateNil, rfl⟩
    · rw [frames, hc, List.map_cons, List.cons_append]
      exact recvLoop_control ..
  | cons q ps ih =>
    intro p s fuel data
    rcases hc : p.controls with _ | ⟨c, cs⟩
    · cases fuel with
      | zero => exact ⟨none, rfl⟩
      | succ fuel =>
        rw [frames, hc, List.map_nil, List.nil_append, recvLoop_fragment p (by decide)]
        exact ih q s fuel _
    · rw [frames, hc, List.map_cons, List.cons_append]
      exact recvLoop_control ..

/-- `recv` returns the data of a message just if it comes in one frame with no ping or pong
before it. -/
theorem recv_message (s : Ws) (kind : DataKind) (p : Part) (ps : List Part) (rest : List UInt8) :
    (∃ F, ∀ fuel ≥ F, ∃ s',
      recv fuel { s with input := wire (frames kind.opcode p ps) ++ rest } =
        .ok (.data ((p :: ps).flatMap Part.payload), s')) ↔ ps = [] ∧ p.controls = [] := by
  constructor
  · rintro ⟨F, h⟩
    obtain ⟨s', h⟩ := h (F + 1) (Nat.le_succ F)
    rcases hc : p.controls with _ | ⟨c, cs⟩
    · cases ps with
      | nil => exact ⟨rfl, rfl⟩
      | cons q ps =>
        rw [recv, frames, hc, List.map_nil, List.nil_append,
          recvLoop_fragment p kind.not_control] at h
        obtain ⟨e, he⟩ := recvLoop_continued ps q s F ([] ++ p.payload)
        cases he.symm.trans h
    · exfalso
      obtain ⟨fs, hfs⟩ : ∃ fs, frames kind.opcode p ps = c.frame :: fs := by
        cases ps with
        | nil => exact ⟨_, by rw [frames, hc]; rfl⟩
        | cons q ps => exact ⟨_, by rw [frames, hc]; rfl⟩
      obtain ⟨e, he⟩ := recvLoop_control c fs (F + 1) []
      rw [recv, hfs, he] at h
      cases h
  · rintro ⟨rfl, hc⟩
    refine ⟨1, fun fuel hf => ?_⟩
    obtain ⟨fuel, rfl⟩ := Nat.exists_eq_add_of_le' hf
    have hframe := (recv_frame_encode (s := s) (b := wire [] ++ rest) _
      (accepted_part p true kind.not_control)).trans (takeFrame_data kind p.payload)
    rw [recv, frames, hc, List.map_nil, List.nil_append, wire_cons, recvLoop, hframe]
    simp [bind, Except.bind]

/-- A text of one byte in one frame, after an empty ping, and in two frames: `recv` raises. -/
theorem ping_raises :
    (¬ ∃ F, ∀ fuel ≥ F, ∃ s', recv fuel ⟨false, false, false,
      wire (frames 1 ⟨[⟨.ping, none, [], by decide⟩], .bits7, none, [72], by decide⟩ []), [],
      false, []⟩ = .ok (.data [72], s')) ∧
    ¬ ∃ F, ∀ fuel ≥ F, ∃ s', recv fuel ⟨false, false, false,
      wire (frames 1 ⟨[], .bits7, none, [72], by decide⟩ [⟨[], .bits7, none, [], by decide⟩]), [],
      false, []⟩ = .ok (.data [72], s') := by
  constructor
  · rintro ⟨F, h⟩
    obtain ⟨s', h⟩ := h (F + 1) (Nat.le_succ F)
    cases h
  · rintro ⟨F, h⟩
    obtain ⟨s', h⟩ := h (F + 2) (Nat.le_add_right F 2)
    cases h

end SkynetHotfix.Websocket
