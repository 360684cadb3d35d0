import SkynetHotfix.Websocket.Receive

/-!
# Sending and receiving

What `send_frame` writes without a mask is the encoding of a frame, which
`recv_frame` reads. With `mask_outgoing` it sets the mask bit and neither sends
a key nor masks, and `recv_frame` takes four bytes of the payload for the key
(`recv_send_frame`).
-/

namespace SkynetHotfix.Websocket

open WebSocket (Frame LengthForm flags lengthByte toBE)

/-- The frames that carry data. -/
inductive DataKind
  | text
  | binary

def DataKind.opcode : DataKind → Fin 16
  | text => 1
  | binary => 2

theorem DataKind.not_control (kind : DataKind) : ¬ 8 ≤ kind.opcode := by cases kind <;> decide

variable {s : Ws}

/-- The form in which `send_frame` writes a length. -/
def sendForm (l : Nat) : LengthForm :=
  if l < 126 then .bits7 else if l < 0xFFFF then .bits16 else .bits64

theorem lt_bound_sendForm {l : Nat} (h : l < 2 ^ 63) : l < (sendForm l).bound := by
  rw [sendForm]
  split
  · assumption
  · split
    · exact Nat.lt_trans (by assumption) (by decide)
    · exact h

/-- The frame that is meant. -/
def sentFrame (kind : DataKind) (data : Str) : Frame where
  fin := true
  opcode := kind.opcode
  form := sendForm data.bytes.length
  key := none
  payload := data.bytes
  fits := lt_bound_sendForm data.lt

/-- The bytes of `send_frame` before the data. -/
def sentHead (masked : Bool) (kind : DataKind) (l : Nat) : List UInt8 :=
  flags true kind.opcode :: lengthByte masked ((sendForm l).code l) :: (sendForm l).extended l

theorem lengthByte_or : ∀ (masked : Bool) (code : Fin 128),
    UInt8.ofNat (code ||| if masked then 0x80 else 0) = lengthByte masked code := by decide

theorem flags_or : ∀ opcode : Fin 16, UInt8.ofNat (0x80 ||| (opcode : Nat)) = flags true opcode := by
  decide

theorem send_frame_eq (kind : DataKind) (data : List UInt8) :
    send_frame true kind.opcode (some data) s = .ok { s with
      output := s.output ++ (sentHead s.mask_outgoing kind data.length ++ data) } := by
  have hflags := flags_or kind.opcode
  by_cases h : data.length < 126
  · have hl := lengthByte_or s.mask_outgoing ⟨data.length, Nat.lt_trans h (by decide)⟩
    simp only [send_frame, sentHead, sendForm, h, if_true, hflags, LengthForm.code,
      LengthForm.extended]
    rw [hl]
    rfl
  · by_cases h' : data.length < 0xFFFF
    · have hl := lengthByte_or s.mask_outgoing 126
      simp only [send_frame, sentHead, sendForm, h, h', if_true, if_false, hflags, LengthForm.code,
        LengthForm.extended]
      rw [show (126 : Nat) = ((126 : Fin 128) : Nat) from rfl, hl]
      rfl
    · have hl := lengthByte_or s.mask_outgoing 127
      simp only [send_frame, sentHead, sendForm, h, h', if_true, if_false, hflags, LengthForm.code,
        LengthForm.extended]
      rw [show (127 : Nat) = ((127 : Fin 128) : Nat) from rfl, hl]
      rfl

/-- Without a mask the frame is what is written. -/
theorem sentFrame_encode (kind : DataKind) (data : Str) :
    (sentFrame kind data).encode = sentHead false kind data.bytes.length ++ data.bytes := by
  simp [Frame.encode, Frame.head, Frame.keyBytes, Frame.body, sentFrame, sentHead]

theorem takeFrame_data (kind : DataKind) (frame_data : List UInt8) :
    takeFrame true kind.opcode frame_data s = .ok (.frame true (some frame_data), s) := by
  cases kind <;> rfl

theorem length_read {n : Nat} {x : List UInt8} {s' : Ws} (h : read n s = (.ok x, s')) :
    s'.input.length + n = s.input.length := by
  rw [read] at h
  split at h
  · cases h
    simp
    omega
  · cases h

/-- A masked frame takes its key from the input, too. -/
theorem length_recvRest {kind : DataKind} {payloadlen l : Nat} {r : Received} {s₁ s' : Ws}
    (hl : readLength payloadlen s = (.ok (l : Int), s₁))
    (h : recvRest true kind.opcode true payloadlen s = .ok (r, s')) :
    (∃ message err, r = .failed message err) ∨ s'.input.length + (l + 4) = s₁.input.length := by
  rw [recvRest, hl] at h
  dsimp only at h
  rw [readMask, if_pos rfl] at h
  cases hm : read 4 s₁ with
  | mk result s₂ =>
    rw [hm] at h
    cases result with
    | error err =>
      cases h
      exact .inl ⟨_, _, rfl⟩
    | ok frame_mask =>
      dsimp only at h
      have hlen := length_read hm
      cases hd : readData l s₂ with
      | mk result s₃ =>
        rw [hd] at h
        cases result with
        | error failure =>
          cases h
          exact .inl ⟨_, _, rfl⟩
        | ok frame_data =>
          dsimp only at h
          have hlen' : s₃.input.length + l = s₂.input.length := by
            rw [readData] at hd
            split at hd
            · rw [Int.toNat_natCast] at hd
              cases hr : read l s₂ with
              | mk result s₄ =>
                rw [hr] at hd
                cases result with
                | error err => cases hd
                | ok fdata =>
                  cases hd
                  exact length_read hr
            · cases hd
              omega
          cases hu : unmask true frame_mask l frame_data with
          | error e =>
            rw [hu] at h
            cases h
          | ok data =>
            rw [hu] at h
            have h : takeFrame true kind.opcode data s₃ = .ok (r, s') := h
            rw [takeFrame_data] at h
            cases h
            exact .inr (by omega)

/-- What `send_frame` writes is read as one final frame with the data, and no more is read, just
without `mask_outgoing`. -/
theorem recv_send_frame (s r : Ws) (kind : DataKind) (data : Str) (rest : List UInt8) :
    (∃ s' w r', send_frame true kind.opcode (some data.bytes) s = .ok s' ∧
      s'.output = s.output ++ w ∧
      recv_frame { r with input := w ++ rest } = .ok (.frame true (some data.bytes), r') ∧
      r'.input = rest) ↔ s.mask_outgoing = false := by
  constructor
  · rintro ⟨s', w, r', hs, hw, hr, rfl⟩
    rw [send_frame_eq] at hs
    cases hs
    have hw := List.append_cancel_left hw
    subst hw
    by_contra hmask
    rw [Bool.not_eq_false] at hmask
    obtain ⟨code, hcode⟩ : ∃ code : Fin 128,
        (sendForm data.bytes.length).code data.bytes.length = code :=
      ⟨⟨_, LengthForm.code_lt (lt_bound_sendForm data.lt)⟩, rfl⟩
    have hshort : 8 ≤ kind.opcode → true = true ∧ (code : Nat) < 126 :=
      fun h => absurd h kind.not_control
    rw [hmask, sentHead, hcode, List.append_assoc, List.cons_append, List.cons_append,
      recv_frame_bytes _ _ _ _ hshort] at hr
    have hl := readLength_frame (s := r) (b := data.bytes ++ r'.input) (sentFrame kind data)
    rcases length_recvRest (hcode ▸ hl) hr with ⟨_, _, h⟩ | h
    · cases h
    · simp [sentFrame] at h
      omega
  · intro hmask
    refine ⟨_, _, { r with input := rest }, send_frame_eq kind data.bytes, rfl, ?_, rfl⟩
    have hf : Accepted (sentFrame kind data) := fun h => absurd h kind.not_control
    rw [hmask, ← sentFrame_encode, recv_frame_encode _ hf]
    exact takeFrame_data kind data.bytes

/-- A text of two bytes with `mask_outgoing`: the key is missing. -/
theorem masked_text_fails : ∃ s' r',
    send_frame true 1 (some [72, 105]) ⟨true, false, false, [], [], false, []⟩ = .ok s' ∧
    recv_frame ⟨false, false, false, s'.output, [], false, []⟩ =
      .ok (.failed "Masking Key read error:" [72, 105], r') :=
  ⟨_, _, rfl, rfl⟩

end SkynetHotfix.Websocket
