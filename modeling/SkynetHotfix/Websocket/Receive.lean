import SkynetHotfix.Websocket.Basic

/-!
# Receiving frames

`recv_frame` reads what the encoding of a frame is made of (`recv_frame_encode`).
-/

namespace SkynetHotfix.Websocket

open Lua
open WebSocket (Frame Key LengthForm flags flags_control flags_fin flags_opcode flags_reserved lengthByte
  lengthByte_code lengthByte_masked mask ofBE toBE)

variable {s : Ws} {a b : List UInt8}

theorem read_append {n : Nat} (h : a.length = n) :
    read n { s with input := a ++ b } = (.ok a, { s with input := b }) := by
  subst h
  rw [read, if_pos (by simp)]
  simp

/-! ## The parts of a frame -/

theorem mapM_mask {key : Key} {g : Nat → Result UInt8} (data : List UInt8) : ∀ n,
    (∀ i d, data[i]? = some d → g (n + 1 + i) = .ok (d ^^^ key (Fin.ofNat 4 (n + i)))) →
    (List.range' (n + 1) data.length).mapM g = .ok (mask key n data) := by
  induction data with
  | nil => exact fun _ _ => rfl
  | cons d data ih =>
    intro n h
    have hrest : (List.range' (n + 1 + 1) data.length).mapM g = .ok (mask key (n + 1) data) := by
      refine ih (n + 1) fun i d' hd => ?_
      have hi := h (i + 1) d' hd
      rw [show n + 1 + (i + 1) = n + 1 + 1 + i by omega, show n + (i + 1) = n + 1 + i by omega] at hi
      exact hi
    have hfirst : g (n + 1) = .ok (d ^^^ key (Fin.ofNat 4 n)) := h 0 d rfl
    rw [List.length_cons, List.range'_succ, List.mapM_cons, hfirst, hrest]
    rfl

theorem websocket_mask_eq (key : Key) (data : List UInt8) :
    websocket_mask (List.ofFn key) data data.length = .ok (mask key 0 data) := by
  refine mapM_mask data 0 fun i d hd => ?_
  have hlt : i % 4 < 4 := Nat.mod_lt _ (by decide)
  have hdata : Seq.get data (0 + 1 + i) = some d := by
    rw [Nat.zero_add, Nat.add_comm]
    exact hd
  have hkey : Seq.get (List.ofFn key) ((0 + 1 + i - 1) % 4 + 1) = some (key (Fin.ofNat 4 (0 + i))) := by
    show (List.ofFn key)[(0 + 1 + i - 1) % 4]? = _
    rw [show 0 + 1 + i - 1 = i by omega, Nat.zero_add, List.getElem?_ofFn, dif_pos hlt]
    rfl
  rw [hdata, hkey]

theorem readLength_frame (f : Frame) : readLength (f.form.code f.payload.length)
    { s with input := f.form.extended f.payload.length ++ b } =
      (.ok (f.payload.length : Int), { s with input := b }) := by
  have hfits := f.fits
  cases hform : f.form with
  | bits7 =>
    rw [hform] at hfits
    rw [readLength, if_pos (show LengthForm.bits7.code f.payload.length < 126 from hfits)]
    rfl
  | bits16 =>
    rw [hform] at hfits
    have hlt : f.payload.length < 256 ^ 2 := hfits
    have hread := read_append (s := s) (a := toBE 2 f.payload.length) (b := b)
      (WebSocket.length_toBE ..)
    simp only [readLength, LengthForm.code, LengthForm.extended, hread, WebSocket.ofBE_toBE hlt]
    rfl
  | bits64 =>
    rw [hform] at hfits
    have hfits : f.payload.length < 2 ^ 63 := hfits
    have hlt : f.payload.length < 256 ^ 8 := by omega
    have hread := read_append (s := s) (a := toBE 8 f.payload.length) (b := b)
      (WebSocket.length_toBE ..)
    have hmod : (f.payload.length : Int).bmod (2 ^ 64) = f.payload.length := by
      rw [Int.bmod_eq_of_le] <;> omega
    simp only [readLength, LengthForm.code, LengthForm.extended, hread, WebSocket.ofBE_toBE hlt,
      hmod]
    rfl

theorem readMask_frame (f : Frame) : readMask f.key.isSome { s with input := f.keyBytes ++ b } =
    (.ok f.keyBytes, { s with input := b }) := by
  cases hkey : f.key with
  | none => simp [readMask, Frame.keyBytes, hkey]
  | some key =>
    have hread := read_append (s := s) (a := List.ofFn key) (b := b) List.length_ofFn
    simp only [readMask, Frame.keyBytes, hkey, Option.isSome_some, if_true, Option.map_some,
      Option.getD_some, hread]

theorem readData_frame (f : Frame) : readData f.payload.length { s with input := f.body ++ b } =
    (.ok f.body, { s with input := b }) := by
  rw [readData]
  split
  · rw [Int.toNat_natCast, read_append f.length_body]
  · have hzero : f.body = [] := by
      rw [← List.length_eq_zero_iff, f.length_body]
      omega
    rw [hzero]
    rfl

theorem unmask_frame (f : Frame) :
    unmask f.key.isSome f.keyBytes f.payload.length f.body = .ok f.payload := by
  cases hkey : f.key with
  | none => simp [unmask, Frame.body, hkey]
  | some key =>
    have hbytes : f.keyBytes = List.ofFn key := by rw [Frame.keyBytes, hkey]; rfl
    have hbody : f.body = mask key 0 f.payload := by rw [Frame.body, hkey]
    rw [unmask, hbytes, hbody]
    split
    · have h := websocket_mask_eq key (mask key 0 f.payload)
      rwa [WebSocket.length_mask, WebSocket.mask_mask] at h
    · rename_i h
      have hzero : f.payload = [] := by
        rw [← List.length_eq_zero_iff]
        simp at h
        simp [h]
      rw [hzero]
      rfl

/-- The first two bytes, unless they are refused. -/
theorem recv_frame_bytes (fin masked : Bool) (opcode : Fin 16) (code : Fin 128)
    (h : 8 ≤ opcode → fin = true ∧ (code : Nat) < 126) :
    recv_frame { s with input := flags fin opcode :: lengthByte masked code :: b } =
      recvRest fin opcode masked code { s with input := b } := by
  have hread := read_append (s := s) (n := 2) (a := [flags fin opcode, lengthByte masked code])
    (b := b) rfl
  have hover : (decide (8 ≤ opcode) && decide ((code : Nat) ≥ 126)) = false := by
    by_cases hc : 8 ≤ opcode
    · simp [(h hc).2]
    · simp [hc]
  have hfrag : (decide (8 ≤ opcode) && !fin) = false := by
    by_cases hc : 8 ≤ opcode
    · simp [(h hc).1]
    · simp [hc]
  have hinput : flags fin opcode :: lengthByte masked code :: b =
      [flags fin opcode, lengthByte masked code] ++ b := rfl
  rw [recv_frame, hinput, hread]
  simp only [List.getD_cons_zero, List.getD_cons_succ, flags_fin, flags_reserved, flags_opcode,
    flags_control, lengthByte_masked, lengthByte_code, hover, hfrag, Bool.false_eq_true, if_false]

/-- A frame that `recv_frame` takes: one of control is short and not fragmented. -/
def Accepted (f : Frame) : Prop :=
  8 ≤ f.opcode → f.fin = true ∧ f.form = .bits7

theorem recv_frame_encode (f : Frame) (hf : Accepted f) :
    recv_frame { s with input := f.encode ++ b } =
      takeFrame f.fin f.opcode f.payload { s with input := b } := by
  obtain ⟨code, hcode⟩ : ∃ code : Fin 128, f.form.code f.payload.length = code :=
    ⟨⟨_, LengthForm.code_lt f.fits⟩, rfl⟩
  have hinput : f.encode ++ b = flags f.fin f.opcode :: lengthByte f.key.isSome code ::
      (f.form.extended f.payload.length ++ (f.keyBytes ++ (f.body ++ b))) := by
    simp [Frame.encode, Frame.head, hcode]
  have hshort : 8 ≤ f.opcode → f.fin = true ∧ (code : Nat) < 126 := by
    intro h
    have hfits := f.fits
    rw [(hf h).2] at hcode hfits
    exact ⟨(hf h).1, hcode ▸ hfits⟩
  rw [hinput, recv_frame_bytes _ _ _ _ hshort, recvRest, ← hcode, readLength_frame]
  dsimp only
  rw [readMask_frame]
  dsimp only
  rw [readData_frame]
  dsimp only
  rw [unmask_frame]
  rfl

end SkynetHotfix.Websocket
