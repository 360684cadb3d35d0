import SkynetHotfix.Netpack.Stream

/-!
# Streams of frames

A frame of one fragment is a packet for the `framer`, whatever comes behind it
(`step_encode`), and so is what `pack` makes (`lpack_eq`). A stream of frames
gives their payloads, and so do its chunks (`receive_frames`).
-/

namespace SkynetHotfix.Netpack

open WebSocket (Frame Key LengthForm flags lengthByte lengthByte_code mask ofBE toBE)

/-! ## The first two bytes -/

theorem not_refused : ∀ opcode : Fin 16, opcode ≠ 0 → ¬ refused (flags true opcode) := by decide

theorem masked_lengthByte : ∀ (m : Bool) (code : Fin 128), masked (lengthByte m code) = m := by
  decide

theorem lengthByte_lt (m : Bool) (code : Fin 128) :
    lengthByte m code &&& 0x7f < 0x7E ↔ (code : Nat) < 126 := by
  rw [UInt8.lt_iff_toNat_lt, lengthByte_code]
  rfl

theorem lengthByte_eq (m : Bool) (code : Fin 128) :
    lengthByte m code &&& 0x7f = 0x7E ↔ (code : Nat) = 126 := by
  rw [← UInt8.toNat_inj, lengthByte_code]
  rfl

/-! ## A frame -/

variable {form : LengthForm} {n : Nat} {b : List UInt8}

theorem lengthEnd_code (m : Bool) (hn : n < form.bound) :
    lengthEnd (lengthByte m (form.code n)) = 2 + (form.extended n).length := by
  cases form with
  | bits7 =>
    have hlt := (lengthByte_lt m ⟨n, Nat.lt_trans hn (by decide)⟩).mpr hn
    exact if_pos hlt
  | bits16 =>
    have hlt := (lengthByte_lt m 126).not.mpr (by decide)
    have heq := (lengthByte_eq m 126).mpr rfl
    exact (if_neg hlt).trans (if_pos heq)
  | bits64 =>
    have hlt := (lengthByte_lt m 127).not.mpr (by decide)
    have heq := (lengthByte_eq m 127).not.mpr (by decide)
    exact (if_neg hlt).trans (if_neg heq)

theorem sizeOf_code (m : Bool) (hn : n < form.bound) (hmax : n < 2 ^ 31) :
    sizeOf (lengthByte m (form.code n)) (form.extended n ++ b) = n := by
  cases form with
  | bits7 =>
    have hlt := (lengthByte_lt m ⟨n, Nat.lt_trans hn (by decide)⟩).mpr hn
    have hcode := lengthByte_code m ⟨n, Nat.lt_trans hn (by decide)⟩
    exact (if_pos hlt).trans (congrArg Nat.cast hcode)
  | bits16 =>
    have hlt := (lengthByte_lt m 126).not.mpr (by decide)
    have heq := (lengthByte_eq m 126).mpr rfl
    have htake : (LengthForm.bits16.extended n ++ b).take 2 = toBE 2 n :=
      List.take_left' (WebSocket.length_toBE 2 n)
    have hsize : ofBE (toBE 2 n) = n := WebSocket.ofBE_toBE hn
    refine (if_neg hlt).trans ((if_pos heq).trans ?_)
    rw [htake, hsize]
  | bits64 =>
    have hlt := (lengthByte_lt m 127).not.mpr (by decide)
    have heq := (lengthByte_eq m 127).not.mpr (by decide)
    have htake : (LengthForm.bits64.extended n ++ b).take 8 = toBE 8 n :=
      List.take_left' (WebSocket.length_toBE 8 n)
    have hsize : ofBE (toBE 8 n) = n := WebSocket.ofBE_toBE (Nat.lt_trans hn (by decide))
    refine (if_neg hlt).trans ((if_neg heq).trans ?_)
    rw [htake, hsize, Int.bmod_eq_of_le] <;> omega

/-- A frame of one fragment with a payload that is not too long. -/
structure Single (f : Frame) : Prop where
  fin : f.fin = true
  opcode : f.opcode ≠ 0
  max : (f.payload.length : Int) ≤ MAX_PACKSIZE

variable {f : Frame}

theorem length_head (f : Frame) : f.head.length =
    2 + (f.form.extended f.payload.length).length + if f.key.isSome then 4 else 0 := by
  have hkey : f.keyBytes.length = if f.key.isSome then 4 else 0 := by
    cases hkey : f.key <;> simp [Frame.keyBytes, hkey]
  rw [Frame.head, List.length_cons, List.length_cons, List.length_append, hkey]
  omega

/-- The header of a frame. -/
theorem read_size_encode (h : Single f) (b : List UInt8) :
    read_size (f.encode ++ b) =
      ⟨f.payload.length, f.head.length, (f.key.getD fun _ => 0), f.key.isSome⟩ := by
  obtain ⟨rest, hrest⟩ : ∃ rest, rest =
    f.form.extended f.payload.length ++ (f.keyBytes ++ (f.body ++ b)) := ⟨_, rfl⟩
  have hbytes : f.encode ++ b = flags true f.opcode ::
      lengthByte f.key.isSome (f.form.code f.payload.length) :: rest := by
    simp [Frame.encode, Frame.head, h.fin, hrest]
  have hend := lengthEnd_code f.key.isSome f.fits
  have hmasked := masked_lengthByte f.key.isSome ⟨_, LengthForm.code_lt f.fits⟩
  have hmax := h.max
  rw [MAX_PACKSIZE] at hmax
  have hsize := sizeOf_code (b := f.keyBytes ++ (f.body ++ b)) f.key.isSome f.fits (by omega)
  dsimp only at hmasked
  have hneed : need (lengthByte f.key.isSome (f.form.code f.payload.length)) = f.head.length := by
    rw [need, hend, hmasked, length_head]
  have hlen : ¬ rest.length + 2 < f.head.length := by
    have hbytes := congrArg List.length hbytes
    rw [Frame.encode, List.append_assoc, List.length_append, List.length_cons,
      List.length_cons] at hbytes
    omega
  rw [hbytes, read_size_cons, if_neg (not_refused _ h.opcode), hneed, if_neg hlen, complete, hneed,
    hmasked, hend, hrest, hsize]
  congr 1
  cases hkey : f.key with
  | none => rfl
  | some key =>
    funext i
    have hkb : f.keyBytes = List.ofFn key := by rw [Frame.keyBytes, hkey]; rfl
    have hi : 2 + (f.form.extended f.payload.length).length + (i : Nat) =
      (f.form.extended f.payload.length).length + i + 1 + 1 := by omega
    rw [Option.isSome_some, if_pos rfl, hkb, hi, List.getD_cons_succ, List.getD_cons_succ,
      List.getD_append_right _ _ _ _ (Nat.le_add_right ..), Nat.add_sub_cancel_left,
      List.getD_append _ _ _ _ (by rw [List.length_ofFn]; exact i.isLt),
      List.getD_eq_getElem _ _ (by rw [List.length_ofFn]; exact i.isLt), List.getElem_ofFn]
    rfl

/-- A frame gives its payload. -/
theorem payload_encode (h : Single f) (b : List UInt8) :
    payload (read_size (f.encode ++ b)) (f.body ++ b) = f.payload := by
  have htake : (f.body ++ b).take f.payload.length = f.body := List.take_left' f.length_body
  rw [read_size_encode h, payload, Int.toNat_natCast, htake, decode_wsmask_data]
  cases hkey : f.key with
  | none => simp [newUncomplete, Frame.body, hkey]
  | some key => simp [newUncomplete, Frame.body, hkey]

theorem step_encode (h : Single f) (b : List UInt8) :
    framer.step (f.encode ++ b) = some ([f.payload], b) := by
  have hread := read_size_encode h b
  have hmax := h.max
  have hsize : (read_size (f.encode ++ b)).pack_size = f.payload.length := by rw [hread]
  have hhead : (read_size (f.encode ++ b)).pack_head_length = f.head.length := by rw [hread]
  have hdrop : (f.encode ++ b).drop f.head.length = f.body ++ b := by
    rw [Frame.encode, List.append_assoc, List.drop_left]
  have hlen : f.head.length + f.payload.length = f.encode.length := by
    rw [Frame.encode, List.length_append, f.length_body]
  have hgood : badFilter (read_size (f.encode ++ b)).pack_size = false := by
    rw [hsize, ← Bool.not_eq_true, badFilter_iff]
    omega
  refine (takePacket_packet (by rw [hsize]; exact Int.natCast_nonneg _) hgood ?_).trans ?_
  · rw [hhead, hsize, Int.toNat_natCast, hlen, List.length_append]
    exact Nat.le_add_right ..
  · rw [hhead, hsize, Int.toNat_natCast, hdrop, payload_encode h, hlen, List.drop_left]

theorem clean_encode (h : Single f) (b : List UInt8) : Clean (f.encode ++ b) := by
  have hsize : (read_size (f.encode ++ b)).pack_size = f.payload.length := by
    rw [read_size_encode h]
  have hmax := h.max
  refine ⟨by omega, by omega, fun hbad => ?_⟩
  rw [hsize, badFilter_iff] at hbad
  omega

/-! ## What is sent -/

/-- The bytes of a packet: a frame, or what `pack` makes of it. -/
inductive Sent : List UInt8 → List UInt8 → Prop
  | frame (f : Frame) (hfin : f.fin = true) (hopcode : f.opcode ≠ 0)
      (hmax : (f.payload.length : Int) ≤ MAX_PACKSIZE) : Sent f.payload f.encode
  | pack (msg : List UInt8) (hmax : (msg.length : Int) ≤ MAX_PACKSIZE) : Sent msg (lpack msg)

theorem frameSetLength_eq (len idx : Nat) :
    frameSetLength len idx = UInt8.ofNat (len / 256 ^ idx) := by
  have hpow : 2 ^ (idx * 8) = 256 ^ idx := by rw [Nat.mul_comm, Nat.pow_mul]
  have hand : ∀ n : Nat, n &&& 0xFF = n % 256 := fun n => Nat.and_two_pow_sub_one_eq_mod n 8
  rw [frameSetLength, Nat.shiftRight_eq_div_pow, hpow, hand, ← UInt8.toNat_inj, UInt8.toNat_ofNat',
    UInt8.toNat_ofNat', Nat.mod_mod]

/-- What `pack` makes is a frame. -/
theorem Sent.single {msg bytes : List UInt8} (h : Sent msg bytes) :
    ∃ f : Frame, Single f ∧ f.payload = msg ∧ f.encode = bytes := by
  cases h with
  | frame f hfin hopcode hmax => exact ⟨f, ⟨hfin, hopcode, hmax⟩, rfl, rfl⟩
  | pack _ hmax =>
    have htwo : (2 : Fin 16) ≠ 0 := by decide
    rw [MAX_PACKSIZE] at hmax
    rw [lpack]
    split
    · rename_i hlt
      refine ⟨⟨true, 2, .bits7, none, msg, hlt⟩, ⟨rfl, htwo, hmax⟩, rfl, ?_⟩
      have hlen := frameSetLength_eq msg.length 0
      rw [Nat.pow_zero, Nat.div_one] at hlen
      rw [hlen]
      simp [Frame.encode, Frame.head, Frame.body, Frame.keyBytes, lengthByte, LengthForm.code,
        LengthForm.extended]
      rfl
    · rename_i hge
      rw [if_pos (by omega)]
      refine ⟨⟨true, 2, .bits16, none, msg, by rw [LengthForm.bound]; omega⟩, ⟨rfl, htwo, hmax⟩,
        rfl, ?_⟩
      rw [frameSetLength_eq, frameSetLength_eq]
      simp [Frame.encode, Frame.head, Frame.body, Frame.keyBytes, LengthForm.extended, toBE]
      exact ⟨rfl, rfl⟩

theorem Sent.step {msg bytes : List UInt8} (h : Sent msg bytes) (b : List UInt8) :
    framer.step (bytes ++ b) = some ([msg], b) ∧ Clean (bytes ++ b) := by
  obtain ⟨f, hf, rfl, rfl⟩ := h.single
  exact ⟨step_encode hf b, clean_encode hf b⟩

theorem Sent.ne_nil {msg bytes : List UInt8} (h : Sent msg bytes) : bytes ≠ [] := by
  obtain ⟨f, -, -, rfl⟩ := h.single
  exact List.cons_ne_nil _ _

/-- The bytes of packets, one after the other. -/
def wire (sent : List (List UInt8 × List UInt8)) : List UInt8 := sent.flatMap fun p => p.2

/-- A stream of packets gives them. -/
theorem drains_wire (sent : List (List UInt8 × List UInt8)) (h : ∀ p ∈ sent, Sent p.1 p.2) :
    framer.Drains (wire sent) (sent.map Prod.fst) [] ∧ framer.Along Clean (wire sent) := by
  induction sent with
  | nil =>
    have hclean : Clean [] := ⟨by decide, fun _ => by decide, fun hb => absurd hb (by decide)⟩
    exact ⟨.stop rfl, .of_stop hclean rfl⟩
  | cons p sent ih =>
    obtain ⟨hp, h⟩ := List.forall_mem_cons.mp h
    obtain ⟨hd, hclean⟩ := ih h
    obtain ⟨hstep, hhere⟩ := hp.step (wire sent)
    rw [wire, List.flatMap_cons]
    exact ⟨.next hstep hd, .of_step hhere hstep hclean⟩

/-- The packets of every connection are delivered, however their bytes come. -/
theorem receive_frames {q : Option Queue} (hq : Reached q) (hpop : (lpop q).1 = none)
    (sent : Int → List (List UInt8 × List UInt8)) (hsent : ∀ fd, ∀ p ∈ sent fd, Sent p.1 p.2)
    (events : List (Int × List UInt8))
    (hevents : ∀ e ∈ events, (find_uncomplete q e.1).1 = none ∧ e.2 ≠ [])
    (hstream : ∀ fd, streamOf fd events = wire (sent fd)) :
    ∃ out q', receiveAll false q events = .ok (out, q') ∧
      ∀ fd, deliveredTo fd out = (sent fd).map fun p => packOf fd p.1 := by
  obtain ⟨pend, hq, hfind⟩ := hq.empty_ring hpop
  have hk : Keeps (fun fd => (find_uncomplete q fd).1 = none) pend fun _ => [] := by
    intro fd hs
    rw [← hfind, hs]
    exact .none
  obtain ⟨out, q', pend', hu, -, hother, hout⟩ := receiveAll_spec events hevents hk
    (fun fd _ => by rw [List.nil_append, hstream]; exact (drains_wire _ (hsent fd)).2) hq
  refine ⟨out, q', hu, fun fd => ?_⟩
  by_cases hs : (find_uncomplete q fd).1 = none
  · obtain ⟨xs, rest, hd, hxs⟩ := hout fd hs
    rw [List.nil_append, hstream] at hd
    obtain ⟨rfl, -⟩ := hd.unique (drains_wire _ (hsent fd)).1
    rw [hxs, List.map_map]
    rfl
  · -- a connection with something kept has no chunk, so nothing has been sent on it
    have hnone : streamOf fd events = [] := by
      rw [streamOf, List.flatMap_eq_nil_iff]
      intro e he
      exact if_neg fun hfd : e.1 = fd => hs (hfd ▸ (hevents e he).1)
    have hnil : sent fd = [] := by
      refine List.eq_nil_iff_forall_not_mem.mpr fun p hp => ?_
      rw [hstream, wire, List.flatMap_eq_nil_iff] at hnone
      exact (hsent fd p hp).ne_nil (hnone p hp)
    rw [hother fd hs, hnil]
    rfl

/-- Two connections with one hash: two bytes from `pack`, and a masked byte. -/
theorem receive_frames_collide : hash_fd 7 = hash_fd 4102 ∧
    ∃ out q', receiveAll false none [(7, [0x82]), (4102, [0x82, 0x81, 1]), (7, [2, 5]),
      (4102, [2, 3, 4]), (7, [6]), (4102, [8])] = .ok (out, q') ∧
      ∀ fd, deliveredTo fd out = (if fd = 7 then [([5, 6], lpack [5, 6])]
        else if fd = 4102 then [([9], [0x82, 0x81, 1, 2, 3, 4, 8])] else []).map
          fun p => packOf fd p.1 := by
  refine ⟨by decide, receive_frames .empty rfl (fun fd => if fd = 7 then [([5, 6], lpack [5, 6])]
    else if fd = 4102 then [([9], [0x82, 0x81, 1, 2, 3, 4, 8])] else []) ?_ _ ?_ ?_⟩
  · intro fd p hp
    have hmasked : Sent [9] [0x82, 0x81, 1, 2, 3, 4, 8] :=
      .frame ⟨true, 2, .bits7, some fun i => UInt8.ofNat (i + 1), [9], by decide⟩ rfl (by decide)
        (by decide)
    split at hp
    · rw [List.mem_singleton.mp hp]
      exact .pack _ (by decide)
    · split at hp
      · rw [List.mem_singleton.mp hp]
        exact hmasked
      · cases hp
  · intro e he
    simp only [List.mem_cons, List.not_mem_nil, or_false] at he
    rcases he with rfl | rfl | rfl | rfl | rfl | rfl <;> exact ⟨rfl, List.cons_ne_nil _ _⟩
  · intro fd
    by_cases h₇ : fd = 7
    · subst h₇
      rfl
    · by_cases h₈ : fd = 4102
      · subst h₈
        rfl
      · rw [if_neg h₇, if_neg h₈]
        simp [streamOf, wire, Ne.symm h₇, Ne.symm h₈]

end SkynetHotfix.Netpack
