import SkynetHotfix.Netpack.Header

/-!
# Parsing the stream of a connection

What the code makes of a stream is the `framer`: two bytes less for a header
that is passed over, and a packet when all of it is there. `resync` is a run of
the first kind of steps (`resync_spec`), as long as no rest of the stream has a
header at which the copies of the loop differ (`Clean`).
-/

namespace SkynetHotfix.Netpack

/-- A step: a header that is passed over, a packet, or nothing yet. -/
def takePacket (bs : List UInt8) : Option (List (List UInt8) × List UInt8) :=
  let r := read_size bs
  if r.pack_size = -1 then none
  else if badFilter r.pack_size then some ([], bs.drop WEBSOCKET_HEADER_LEN)
  else if r.pack_size < 0 then none
  else if bs.length < r.pack_head_length + r.pack_size.toNat then none
  else some ([payload r (bs.drop r.pack_head_length)],
    bs.drop (r.pack_head_length + r.pack_size.toNat))

theorem badFilter_iff {n : Int} : badFilter n = true ↔ n = -2 ∨ n > MAX_PACKSIZE := by
  simp [badFilter]

theorem badMore_iff {n : Int} : badMore n = true ↔ n ≤ -2 ∨ n > MAX_PACKSIZE := by
  simp [badMore]

variable {bs a r rest : List UInt8} {xs : List (List UInt8)}

/-- The header of a packet. -/
theorem head_length_of_size (h : 0 ≤ (read_size bs).pack_size) :
    2 ≤ (read_size bs).pack_head_length ∧ (read_size bs).pack_head_length ≤ bs.length := by
  refine head_length_le (fun e => ?_) fun e => ?_
  · rw [e] at h
    exact absurd h (by decide)
  · rw [e] at h
    exact absurd h (by decide)

theorem takePacket_wait (h : (read_size bs).pack_size = -1) : takePacket bs = none := by
  rw [takePacket, if_pos h]

theorem takePacket_bad (h : badFilter (read_size bs).pack_size = true) :
    takePacket bs = some ([], bs.drop WEBSOCKET_HEADER_LEN) := by
  have hne : (read_size bs).pack_size ≠ -1 := by
    intro e
    rw [e] at h
    exact absurd h (by decide)
  rw [takePacket, if_neg hne, if_pos h]

theorem takePacket_short (h : 0 ≤ (read_size bs).pack_size)
    (hg : badFilter (read_size bs).pack_size = false)
    (hlen : bs.length < (read_size bs).pack_head_length + (read_size bs).pack_size.toNat) :
    takePacket bs = none := by
  rw [takePacket, if_neg (by omega), if_neg (by rw [hg]; decide), if_neg (by omega), if_pos hlen]

theorem takePacket_packet (h : 0 ≤ (read_size bs).pack_size)
    (hg : badFilter (read_size bs).pack_size = false)
    (hlen : (read_size bs).pack_head_length + (read_size bs).pack_size.toNat ≤ bs.length) :
    takePacket bs = some ([payload (read_size bs) (bs.drop (read_size bs).pack_head_length)],
      bs.drop ((read_size bs).pack_head_length + (read_size bs).pack_size.toNat)) := by
  rw [takePacket, if_neg (by omega), if_neg (by rw [hg]; decide), if_neg (by omega),
    if_neg (by omega)]

/-- A step by what it takes. -/
theorem takePacket_some {out : List (List UInt8)} (h : takePacket bs = some (out, r)) :
    read_size bs ≠ .only (-1) ∧
    ((badFilter (read_size bs).pack_size = true ∧ out = [] ∧ r = bs.drop WEBSOCKET_HEADER_LEN) ∨
      0 ≤ (read_size bs).pack_size ∧ badFilter (read_size bs).pack_size = false ∧
      (read_size bs).pack_head_length + (read_size bs).pack_size.toNat ≤ bs.length ∧
      out = [payload (read_size bs) (bs.drop (read_size bs).pack_head_length)] ∧
      r = bs.drop ((read_size bs).pack_head_length + (read_size bs).pack_size.toNat)) := by
  have hne : (read_size bs).pack_size ≠ -1 := fun e => by
    rw [takePacket_wait e] at h
    cases h
  refine ⟨fun e => hne (congrArg ReadSize.pack_size e), ?_⟩
  cases hb : badFilter (read_size bs).pack_size with
  | true =>
    rw [takePacket_bad hb] at h
    cases h
    exact .inl ⟨rfl, rfl, rfl⟩
  | false =>
    rw [takePacket, if_neg hne, if_neg (by rw [hb]; decide)] at h
    split at h
    · cases h
    · split at h
      · cases h
      · cases h
        exact .inr ⟨by omega, rfl, by omega, rfl, rfl⟩

/-- The payload is what its size says, and no more is looked at. -/
theorem payload_append (h : ReadSize) {c : List UInt8} (hlen : h.pack_size.toNat ≤ c.length)
    (b : List UInt8) : payload h (c ++ b) = payload h c := by
  rw [payload, payload, List.take_append_of_le_length hlen]

/-- What the code makes of a stream. -/
def framer : Framer UInt8 (List UInt8) where
  step := takePacket
  shorter := by
    intro bs out r h
    obtain ⟨hne, h⟩ := takePacket_some h
    have htwo := two_le_length hne
    rcases h with ⟨-, -, rfl⟩ | ⟨hs, -, hlen, -, rfl⟩
    · rw [List.length_drop, WEBSOCKET_HEADER_LEN]
      omega
    · have hhead := head_length_of_size hs
      rw [List.length_drop]
      omega
  stable := by
    intro a out r b h
    obtain ⟨hne, h⟩ := takePacket_some h
    have htwo := two_le_length hne
    have happ := read_size_append hne b
    rcases h with ⟨hb, rfl, rfl⟩ | ⟨hs, hg, hlen, rfl, rfl⟩
    · have hle : WEBSOCKET_HEADER_LEN ≤ a.length := htwo
      rw [takePacket_bad (by rw [happ]; exact hb), List.drop_append_of_le_length hle]
    · have hhead := head_length_of_size hs
      rw [takePacket_packet (by rw [happ]; exact hs) (by rw [happ]; exact hg)
        (by rw [happ, List.length_append]; omega), happ, List.drop_append_of_le_length hlen,
        List.drop_append_of_le_length hhead.2, payload_append _ (by rw [List.length_drop]; omega)]

/-! ## Headers that are passed over -/

/-- The header that is found in bytes of a header has all of them. -/
def Lossless (t : List UInt8) : Prop :=
  0 ≤ (resync badFilter t).1.pack_size →
    (resync badFilter t).1.pack_head_length = (resync badFilter t).2.length

/-- What is found in the bytes of a header that is passed over loses none of them. -/
def Kept (bs : List UInt8) : Prop :=
  badFilter (read_size bs).pack_size = true →
    Lossless ((bs.take (read_size bs).pack_head_length).drop WEBSOCKET_HEADER_LEN)

/-- A rest of the stream whose header every copy of the loop takes for the same. -/
structure Clean (bs : List UInt8) : Prop where
  sized : ¬ (read_size bs).pack_size ≤ -3
  fits : (read_size bs).pack_size = -1 → bs.length ≤ HEADERSIZE
  kept : Kept bs

/-- A loop that passes over the sizes that the others do. -/
def Agrees (bad : Int → Bool) : Prop := ∀ n : Int, ¬ n ≤ -3 → bad n = badFilter n

theorem agrees_badFilter : Agrees badFilter := fun _ _ => rfl

theorem agrees_badMore : Agrees badMore := by
  intro n hn
  rw [Bool.eq_iff_iff, badMore_iff, badFilter_iff]
  omega

theorem resync_good {bad : Int → Bool} (h : bad (read_size bs).pack_size = false) :
    resync bad bs = (read_size bs, bs) := by
  match bs with
  | [] => rfl
  | [_] => rfl
  | b₀ :: b₁ :: rest =>
    rw [resync]
    simp [h]

theorem resync_bad {bad : Int → Bool} (h : bad (read_size bs).pack_size = true)
    (hlen : 2 ≤ bs.length) : resync bad bs = resync bad (bs.drop WEBSOCKET_HEADER_LEN) := by
  match bs with
  | [] => cases hlen
  | [_] => exact absurd hlen (by simp)
  | b₀ :: b₁ :: rest =>
    rw [resync]
    simp only [h, if_true]
    rfl

/-- Where the loop stops: the stream from there gives the same packets. -/
structure Stops (bs stop fut : List UInt8) : Prop where
  drains : ∀ {b xs rest}, framer.Drains (stop ++ b) xs rest → framer.Drains (bs ++ b) xs rest
  clean : framer.Along Clean (stop ++ fut)
  good : badFilter (read_size stop).pack_size = false
  sized : (read_size stop).pack_size = -1 ∨ 0 ≤ (read_size stop).pack_size
  length : stop.length ≤ bs.length

theorem Clean.sized_of_append {fut : List UInt8} (h : Clean (bs ++ fut)) :
    ¬ (read_size bs).pack_size ≤ -3 := by
  by_cases hne : read_size bs = .only (-1)
  · rw [hne]
    decide
  · rw [← read_size_append hne fut]
    exact h.sized

theorem resync_spec {bad : Int → Bool} (hbad : Agrees bad) (n : Nat) : ∀ (bs fut : List UInt8),
    bs.length ≤ n → framer.Along Clean (bs ++ fut) →
    ∃ stop, resync bad bs = (read_size stop, stop) ∧ Stops bs stop fut := by
  induction n using Nat.strongRecOn with
  | _ n ih =>
    intro bs fut hn hclean
    have hsized := hclean.here.sized_of_append
    cases hb : badFilter (read_size bs).pack_size with
    | false =>
      refine ⟨bs, resync_good (by rw [hbad _ hsized, hb]), fun h => h, hclean, hb, ?_,
        Nat.le_refl _⟩
      have hb : ¬ ((read_size bs).pack_size = -2 ∨ (read_size bs).pack_size > MAX_PACKSIZE) := by
        rw [← badFilter_iff, hb]
        decide
      omega
    | true =>
      have hne : read_size bs ≠ .only (-1) := fun e => by
        rw [e] at hb
        exact absurd hb (by decide)
      have hlen := two_le_length hne
      have hstep : ∀ b, framer.step (bs ++ b) = some ([], bs.drop WEBSOCKET_HEADER_LEN ++ b) :=
        fun b => framer.stable b (takePacket_bad hb)
      obtain ⟨stop, hstop, hs⟩ := ih (n - 1) (by omega) (bs.drop WEBSOCKET_HEADER_LEN) fut
        (by rw [List.length_drop, WEBSOCKET_HEADER_LEN]; omega) (hclean.step (hstep fut))
      refine ⟨stop, ?_, fun h => .next (hstep _) (hs.drains h), hs.clean, hs.good, hs.sized, ?_⟩
      · rw [resync_bad (by rw [hbad _ hsized, hb]) hlen, hstop]
      · have hlength := hs.length
        rw [List.length_drop] at hlength
        omega

/-! ## What is at the front of a stream -/

/-- What is at the front when no header is passed over. -/
inductive Front (bs : List UInt8) (xs : List (List UInt8)) (rest : List UInt8) : Prop
  | wait (hsize : (read_size bs).pack_size = -1) (hxs : xs = []) (hrest : rest = bs)
  | short (hsize : 0 ≤ (read_size bs).pack_size)
      (hlen : ((bs.drop (read_size bs).pack_head_length).length : Int) < (read_size bs).pack_size)
      (hxs : xs = []) (hrest : rest = bs)
  | packet (ys : List (List UInt8)) (hsize : 0 ≤ (read_size bs).pack_size)
      (hlen : (read_size bs).pack_size ≤ (bs.drop (read_size bs).pack_head_length).length)
      (hstep : framer.step bs = some ([payload (read_size bs)
        (bs.drop (read_size bs).pack_head_length)],
        (bs.drop (read_size bs).pack_head_length).drop (read_size bs).pack_size.toNat))
      (hxs : xs = payload (read_size bs) (bs.drop (read_size bs).pack_head_length) :: ys)
      (hdrains : framer.Drains
        ((bs.drop (read_size bs).pack_head_length).drop (read_size bs).pack_size.toNat) ys rest)

theorem front (hg : badFilter (read_size bs).pack_size = false)
    (hs : (read_size bs).pack_size = -1 ∨ 0 ≤ (read_size bs).pack_size)
    (hd : framer.Drains bs xs rest) : Front bs xs rest := by
  rcases hs with hs | hs
  · obtain ⟨rfl, rfl⟩ := hd.unique (.stop (takePacket_wait hs))
    exact .wait hs rfl rfl
  · obtain ⟨-, hhead⟩ := head_length_of_size hs
    by_cases hlen : bs.length < (read_size bs).pack_head_length + (read_size bs).pack_size.toNat
    · obtain ⟨rfl, rfl⟩ := hd.unique (.stop (takePacket_short hs hg hlen))
      exact .short hs (by rw [List.length_drop]; omega) rfl rfl
    · have hstep : framer.step bs = _ := takePacket_packet hs hg (Nat.not_lt.mp hlen)
      rw [← List.drop_drop] at hstep
      obtain ⟨ys, r, hd'⟩ := framer.exists_drains
        ((bs.drop (read_size bs).pack_head_length).drop (read_size bs).pack_size.toNat)
      obtain ⟨rfl, rfl⟩ := hd.unique (.next hstep hd')
      exact .packet ys hs (by rw [List.length_drop]; omega) hstep rfl hd'

theorem Stops.front {stop fut : List UInt8} (h : Stops bs stop fut)
    (hd : framer.Drains bs xs rest) : Front stop xs rest := by
  refine Netpack.front h.good h.sized ?_
  obtain ⟨ys, r, hd'⟩ := framer.exists_drains stop
  have hd'' := h.drains (b := []) (by rw [List.append_nil]; exact hd')
  rw [List.append_nil] at hd''
  obtain ⟨rfl, rfl⟩ := hd.unique hd''
  exact hd'

/-- The rest behind a packet. -/
theorem Stops.behind {stop fut r : List UInt8} {out : List (List UInt8)} (h : Stops bs stop fut)
    (hs : framer.step stop = some (out, r)) : framer.Along Clean (r ++ fut) :=
  h.clean.step (framer.stable fut hs)

end SkynetHotfix.Netpack
