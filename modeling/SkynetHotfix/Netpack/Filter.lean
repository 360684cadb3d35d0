import SkynetHotfix.Netpack.Parse
import SkynetHotfix.Netpack.Queue

/-!
# Chunks of a stream

A packet that is not complete stands for the bytes of the stream that have not
become packets yet (`Pending`), as a header or as a header with a payload that
is unmasked piece by piece. `filter_data_` adds a chunk to them and gives the
packets of the `framer` (`filter_data_spec`): the two paths for a new packet and
the two that go on with one agree.
-/

namespace SkynetHotfix.Netpack

open Function (update)
open WebSocket (mask)

/-- A complete packet. -/
def packOf (fd : Int) (buffer : List UInt8) : Pack := ⟨fd, buffer.length, buffer⟩

/-! ## Payloads -/

theorem fill_nil (uc : Uncomplete) : uc.fill [] = uc := by
  cases hm : uc.ismask <;> simp [Uncomplete.fill, decode_wsmask_data, mask, hm]
  all_goals rw [← hm]

/-- Pieces of a payload one after the other. -/
theorem fill_fill (uc : Uncomplete) (a b : List UInt8) : (uc.fill a).fill b = uc.fill (a ++ b) := by
  rw [Uncomplete.fill, Uncomplete.fill, Uncomplete.fill]
  cases hm : uc.ismask with
  | false =>
    simp [decode_wsmask_data, hm]
    omega
  | true =>
    simp [decode_wsmask_data, hm, WebSocket.mask_append]
    omega

/-- A packet without its header, which does not matter to the payload. -/
def Uncomplete.body (uc : Uncomplete) : Uncomplete :=
  ⟨uc.pack, [], uc.read, uc.mask, uc.ismask, uc.hasunmask_size⟩

theorem body_fill (uc : Uncomplete) (a : List UInt8) : (uc.fill a).body = uc.body.fill a := by
  rw [Uncomplete.body, Uncomplete.fill, Uncomplete.fill, decode_wsmask_data, decode_wsmask_data]
  cases hm : uc.ismask <;> simp [Uncomplete.body, hm]

/-- The bytes of a payload, all at once. -/
theorem fill_buffer (fd : Int) (r : ReadSize) (a : List UInt8) :
    ((newUncomplete fd r).fill (a.take r.pack_size.toNat)).pack.buffer = payload r a := by
  rw [Uncomplete.fill, payload, decode_wsmask_data, decode_wsmask_data]
  cases hm : r.ismask <;> simp [newUncomplete, hm]

theorem length_payload {r : ReadSize} {a : List UInt8} (h : r.pack_size.toNat ≤ a.length) :
    (payload r a).length = r.pack_size.toNat := by
  rw [payload, decode_wsmask_data]
  split <;> simp [h]

/-! ## Packets that are not complete -/

/-- What is kept for `fd` stands for the bytes `bs`. -/
inductive Pending (fd : Int) : Option Uncomplete → List UInt8 → Prop
  | none : Pending fd none []
  | header {uc : Uncomplete} {bs : List UInt8} (hid : uc.pack.id = fd) (hread : uc.read < 0)
      (hheader : uc.header = bs) (hsize : (read_size bs).pack_size = -1) : Pending fd (some uc) bs
  | payload {uc : Uncomplete} {hb raw : List UInt8}
      (hlen : (read_size hb).pack_head_length = hb.length)
      (hsize : 0 ≤ (read_size hb).pack_size) (hgood : badFilter (read_size hb).pack_size = false)
      (hraw : (raw.length : Int) < (read_size hb).pack_size)
      (huc : uc.body = (newUncomplete fd (read_size hb)).fill raw) :
      Pending fd (some uc) (hb ++ raw)

variable {fd : Int} {bs fut rest : List UInt8} {xs : List (List UInt8)} {q : Option Queue}
  {pend : Int → Option Uncomplete} {ring : List Pack} {bad : Int → Bool}

/-- What is kept waits for more. -/
theorem step_pending {uc : Option Uncomplete} (h : Pending fd uc bs) : framer.step bs = none := by
  cases h with
  | none => rfl
  | header _ _ _ hsize => exact takePacket_wait hsize
  | @payload uc hb raw hlen hsize hgood hraw _ =>
    have happ : read_size (hb ++ raw) = read_size hb := read_size_append (fun e => by
      rw [e] at hsize
      exact absurd hsize (by decide)) raw
    refine takePacket_short (by rw [happ]; exact hsize) (by rw [happ]; exact hgood) ?_
    rw [happ, hlen, List.length_append]
    omega

theorem readHead_spec (hbad : Agrees bad) (hclean : framer.Along Clean (bs ++ fut)) :
    ∃ stop, readHead false bad bs = .ok (read_size stop, stop) ∧ Stops bs stop fut := by
  obtain ⟨stop, hstop, hs⟩ := resync_spec hbad bs.length bs fut (Nat.le_refl _) hclean
  exact ⟨stop, by rw [readHead, hstop]; rfl, hs⟩

/-- There is room for a header that waits. -/
theorem Clean.room (hclean : Clean (bs ++ fut)) (hsize : (read_size bs).pack_size = -1) :
    bs.length < 14 ∨ bs.length + fut.length ≤ HEADERSIZE := by
  by_cases hne : read_size bs = .only (-1)
  · have hseen := seen_read_size bs
    rw [hne] at hseen
    generalize hr : ReadSize.only (-1) = r at hseen
    cases hseen with
    | wait hlen => exact .inl hlen
    | refuse => exact absurd (only_inj hr) (by decide)
    | header _ => exact absurd hr.symm (complete_ne_only _)
  · have hfits := hclean.fits
    rw [read_size_append hne, List.length_append] at hfits
    exact .inr (hfits hsize)

theorem saveHeader_spec (hsize : (read_size bs).pack_size = -1) (hclean : Clean (bs ++ fut))
    (hq : Holds q pend ring) (hfd : pend fd = none) :
    ∃ q' uc, saveHeader q fd bs = .ok q' ∧ Pending fd uc bs ∧
      Holds q' (update pend fd uc) ring := by
  have hlen : ¬ bs.length > HEADERSIZE := by
    have hroom := hclean.room hsize
    rw [HEADERSIZE] at hroom ⊢
    omega
  have hq' := hq.save_uncomplete hfd
    ⟨⟨fd, 0, []⟩, bs, -1, fun _ => 0, false, 0⟩
  exact ⟨_, _, by rw [saveHeader, if_neg hlen], .header rfl (show (-1 : Int) < 0 by decide) rfl
    hsize, hq'⟩

/-- A payload that has begun. -/
theorem savePayload_spec (hsize : 0 ≤ (read_size bs).pack_size)
    (hgood : badFilter (read_size bs).pack_size = false)
    (hlen : ((bs.drop (read_size bs).pack_head_length).length : Int) < (read_size bs).pack_size)
    (hq : Holds q pend ring) (hfd : pend fd = none) :
    ∃ q' uc, savePayload q fd (read_size bs) (bs.drop (read_size bs).pack_head_length) = .ok q' ∧
      Pending fd uc bs ∧ Holds q' (update pend fd uc) ring := by
  obtain ⟨-, hhead⟩ := head_length_of_size hsize
  have h₁ : read_size bs ≠ .only (-1) := fun e => by
    rw [e] at hsize
    exact absurd hsize (by decide)
  have h₂ : read_size bs ≠ .only (-2) := fun e => by
    rw [e] at hsize
    exact absurd hsize (by decide)
  have htake := read_size_take h₁ h₂
  have hq' := hq.save_uncomplete hfd
    ((newUncomplete fd (read_size bs)).fill (bs.drop (read_size bs).pack_head_length))
  refine ⟨_, _, ?_, ?_, hq'⟩
  · rw [savePayload, malloc, if_neg (by omega)]
    rfl
  · have hp : ∀ uc : Uncomplete, uc.body = (newUncomplete fd (read_size bs)).fill
        (bs.drop (read_size bs).pack_head_length) → Pending fd (some uc)
          (bs.take (read_size bs).pack_head_length ++ bs.drop (read_size bs).pack_head_length) := by
      intro uc huc
      refine .payload ?_ ?_ ?_ ?_ ?_
      · rw [htake, List.length_take_of_le hhead]
      · rwa [htake]
      · rwa [htake]
      · rwa [htake]
      · rwa [htake]
    rw [List.take_append_drop] at hp
    exact hp _ rfl

/-- The packets of a buffer with more than one go into the ring. -/
theorem push_more_spec (fuel : Nat) : ∀ (bs fut : List UInt8) (q : Option Queue) (ring : List Pack)
    (xs : List (List UInt8)) (rest : List UInt8), bs.length ≤ fuel → bs ≠ [] →
    framer.Along Clean (bs ++ fut) → framer.Drains bs xs rest → Holds q pend ring →
    pend fd = none →
    ∃ q' uc, push_more fd false fuel bs q = .ok q' ∧ Pending fd uc rest ∧
      Holds q' (update pend fd uc) (ring ++ xs.map (packOf fd)) := by
  induction fuel with
  | zero =>
    intro bs _ _ _ _ _ hlen hne
    exact absurd (List.length_eq_zero_iff.mp (Nat.le_zero.mp hlen)) hne
  | succ fuel ih =>
    intro bs fut q ring xs rest hlen hne hclean hd hq hfd
    obtain ⟨stop, hhead, hs⟩ := readHead_spec agrees_badMore hclean
    cases hs.front hd with
    | wait hsize hxs hrest =>
      subst hxs hrest
      obtain ⟨q', uc, hu, hp, hq'⟩ := saveHeader_spec hsize hs.clean.here hq hfd
      refine ⟨q', uc, Fuel.bind_eq_ok.mpr ⟨_, hhead, ?_⟩, hp, by simpa using hq'⟩
      dsimp only
      rw [if_pos hsize, hu]
    | short hsize hshort hxs hrest =>
      subst hxs hrest
      obtain ⟨q', uc, hu, hp, hq'⟩ := savePayload_spec hsize hs.good hshort hq hfd
      refine ⟨q', uc, Fuel.bind_eq_ok.mpr ⟨_, hhead, ?_⟩, hp, by simpa using hq'⟩
      dsimp only
      rw [if_neg (by omega), if_pos ⟨hshort, by decide⟩, hu]
    | packet ys hsize hfits hstep hxs hdrains =>
      subst hxs
      have hsz : (read_size stop).pack_size.toNat ≤
          (stop.drop (read_size stop).pack_head_length).length := by omega
      obtain ⟨q₁, hu₁, hq₁⟩ := hq.push_data
        (payload (read_size stop) (stop.drop (read_size stop).pack_head_length)) hsize true
      have hpack : (⟨fd, (read_size stop).pack_size,
          payload (read_size stop) (stop.drop (read_size stop).pack_head_length)⟩ : Pack) =
          packOf fd (payload (read_size stop) (stop.drop (read_size stop).pack_head_length)) := by
        rw [packOf, length_payload hsz, Int.toNat_of_nonneg hsize]
      rw [hpack] at hq₁
      have hshorter := framer.shorter hstep
      have hstop := hs.length
      have hrec := hs.behind hstep
      generalize hr : (stop.drop (read_size stop).pack_head_length).drop
        (read_size stop).pack_size.toNat = r at *
      by_cases hnil : r = []
      · subst hnil
        obtain ⟨rfl, rfl⟩ := hdrains.unique (.stop rfl)
        refine ⟨q₁, none, Fuel.bind_eq_ok.mpr ⟨_, hhead, ?_⟩, .none, ?_⟩
        · dsimp only
          rw [if_neg (by omega), if_neg (by omega)]
          refine Fuel.bind_eq_ok.mpr ⟨q₁, hu₁, ?_⟩
          rw [hr]
          rfl
        · rw [← hfd, Function.update_eq_self]
          exact hq₁
      · obtain ⟨q', uc, hu, hp, hq'⟩ := ih r fut q₁ (ring ++ [packOf fd (payload (read_size stop)
          (stop.drop (read_size stop).pack_head_length))]) ys rest (by omega) hnil hrec hdrains hq₁ hfd
        refine ⟨q', uc, Fuel.bind_eq_ok.mpr ⟨_, hhead, ?_⟩, hp, by simpa using hq'⟩
        dsimp only
        rw [if_neg (by omega), if_neg (by omega)]
        refine Fuel.bind_eq_ok.mpr ⟨q₁, hu₁, ?_⟩
        rw [hr, if_pos (List.length_pos_iff.mpr hnil)]
        exact hu

/-! ## Going on with a packet -/

/-- What a chunk gives when the packets `xs` are complete with it. -/
inductive Gives (fd : Int) (ring : List Pack) : List (List UInt8) → Ret → List Pack → Prop
  | nothing : Gives fd ring [] .nothing ring
  | data (b : List UInt8) : Gives fd ring [b] (.data fd b b.length) ring
  | more (xs : List (List UInt8)) : Gives fd ring xs .more (ring ++ xs.map (packOf fd))

/-- A header with some of its payload behind it. -/
structure Begun (hb : List UInt8) : Prop where
  len : (read_size hb).pack_head_length = hb.length
  size : 0 ≤ (read_size hb).pack_size
  good : badFilter (read_size hb).pack_size = false

theorem Begun.read {hb : List UInt8} (h : Begun hb) (a : List UInt8) :
    read_size (hb ++ a) = read_size hb := by
  refine read_size_append (fun e => ?_) a
  have hsize := h.size
  rw [e] at hsize
  exact absurd hsize (by decide)

theorem Begun.drop {hb : List UInt8} (h : Begun hb) (a : List UInt8) :
    (hb ++ a).drop (read_size hb).pack_head_length = a := by
  rw [h.len, List.drop_left]

theorem Begun.front {hb a : List UInt8} (h : Begun hb) (hd : framer.Drains (hb ++ a) xs rest) :
    Front (hb ++ a) xs rest :=
  Netpack.front (by rw [h.read]; exact h.good) (.inr (by rw [h.read]; exact h.size)) hd

/-- The packet, when the rest of its payload is there. -/
theorem pack_of_filled {hb raw c : List UInt8} {uc : Uncomplete} {n : Nat} (h : Begun hb)
    (huc : uc.body = (newUncomplete fd (read_size hb)).fill raw)
    (hn : (read_size hb).pack_size - raw.length = n) (hlen : n ≤ c.length) :
    (uc.fill (c.take n)).pack = packOf fd (payload (read_size hb) (raw ++ c)) := by
  have hsize := h.size
  have hraw : raw.length ≤ (read_size hb).pack_size.toNat := by omega
  have htake : raw ++ c.take n = (raw ++ c).take (read_size hb).pack_size.toNat := by
    rw [List.take_append, List.take_of_length_le hraw]
    congr 2
    omega
  have hbody := body_fill uc (c.take n)
  rw [huc, fill_fill, htake] at hbody
  have hpack : (uc.fill (c.take n)).pack = _ := congrArg (fun u => u.pack) hbody
  have hlength := length_payload (r := read_size hb) (a := raw ++ c)
    (by rw [List.length_append]; omega)
  rw [hpack, packOf, hlength, Int.toNat_of_nonneg hsize, ← fill_buffer fd]
  rfl

theorem fillPayload_spec {hb raw c : List UInt8} {uc : Uncomplete} (h : Begun hb)
    (hraw : (raw.length : Int) ≤ (read_size hb).pack_size)
    (huc : uc.body = (newUncomplete fd (read_size hb)).fill raw)
    (hclean : framer.Along Clean (hb ++ raw ++ c ++ fut))
    (hd : framer.Drains (hb ++ raw ++ c) xs rest) (hq : Holds q pend ring) (hfd : pend fd = none) :
    ∃ ret q' uc' ring', fillPayload fd false uc c q = .ok (ret, q') ∧ Gives fd ring xs ret ring' ∧
      Pending fd uc' rest ∧ Holds q' (update pend fd uc') ring' := by
  have hid : uc.pack.id = fd := congrArg (fun u => u.pack.id) huc
  have hsize : uc.pack.size = (read_size hb).pack_size := congrArg (fun u => u.pack.size) huc
  have hread : uc.read = raw.length :=
    (congrArg Uncomplete.read huc).trans (Int.zero_add _)
  rw [List.append_assoc] at hd
  have hneed : uc.pack.size - uc.read = (read_size hb).pack_size - raw.length := by
    rw [hsize, hread]
  rw [fillPayload, hneed]
  cases h.front hd with
  | wait hwait hxs hrest =>
    rw [h.read] at hwait
    have hsize := h.size
    omega
  | short hs hlen hxs hrest =>
    subst hxs hrest
    rw [h.read, h.drop, List.length_append] at hlen
    rw [if_pos (by omega)]
    refine ⟨_, _, _, _, rfl, .nothing, ?_, hq.save_uncomplete hfd (uc.fill c)⟩
    refine .payload h.len h.size h.good (by rw [List.length_append]; omega) ?_
    rw [← fill_fill, ← huc, ← body_fill, ← hid]
    rfl
  | packet ys hs hlen hstep hxs hdrains =>
    subst hxs
    rw [h.read] at *
    rw [h.drop] at *
    rw [List.length_append] at hlen
    rw [if_neg (by omega)]
    obtain ⟨n, hn⟩ : ∃ n : Nat, (read_size hb).pack_size - raw.length = n :=
      ⟨_, (Int.toNat_of_nonneg (by omega)).symm⟩
    have hraw' : raw.length ≤ (read_size hb).pack_size.toNat := by omega
    have hdrop : (raw ++ c).drop (read_size hb).pack_size.toNat = c.drop n := by
      rw [List.drop_append, List.drop_eq_nil_of_le hraw', List.nil_append]
      congr 1
      omega
    have hpack : (uc.fill (c.take n)).pack = _ := pack_of_filled h huc hn (by omega)
    rw [hdrop] at hdrains hstep
    have hstep' := framer.stable fut hstep
    rw [← List.append_assoc hb] at hstep'
    rw [hn, Int.toNat_natCast]
    generalize hr : c.drop n = r at *
    by_cases hnil : r = []
    · subst hnil
      obtain ⟨rfl, rfl⟩ := hdrains.unique (.stop rfl)
      refine ⟨_, q, none, _, ?_, .data _, .none, ?_⟩
      · dsimp only
        rw [hpack]
        rfl
      · rw [← hfd, Function.update_eq_self]
        exact hq
    · have hfilled : 0 ≤ (uc.fill (c.take n)).pack.size := by
        rw [hpack]
        exact Int.natCast_nonneg _
      obtain ⟨q₁, hu₁, hq₁⟩ := hq.push_data (uc.fill (c.take n)).pack.buffer hfilled false
      obtain ⟨q', uc', hu, hp, hq'⟩ := push_more_spec r.length r fut q₁ _ ys rest (Nat.le_refl _)
        hnil (hclean.step hstep') hdrains hq₁ hfd
      refine ⟨_, q', _, _, ?_, .more _, hp, ?_⟩
      · dsimp only
        rw [if_neg (by simpa using hnil)]
        exact Fuel.bind_eq_ok.mpr ⟨q₁, hu₁, Fuel.bind_eq_ok.mpr ⟨q', hu, rfl⟩⟩
      · rw [hpack, List.append_assoc] at hq'
        exact hq'

/-- A header that is complete with a byte has no more bytes than it needs. -/
theorem begun_of_resync {a stop : List UInt8} {b : UInt8} (ha : (read_size a).pack_size = -1)
    (hkept : Kept (a ++ [b] ++ fut)) (hstop : resync badFilter (a ++ [b]) = (read_size stop, stop))
    (hgood : badFilter (read_size stop).pack_size = false)
    (hsize : 0 ≤ (read_size stop).pack_size) : Begun stop := by
  by_cases hone : read_size (a ++ [b]) = .only (-1)
  · have hsame : resync badFilter (a ++ [b]) = _ := resync_good (by rw [hone]; decide)
    rw [hsame, hone] at hstop
    rw [← (Prod.mk.inj hstop).1] at hsize
    exact absurd hsize (by decide)
  · have ha : read_size a = .only (-1) := by
      by_contra hne
      have happ := read_size_append hne [b]
      have hsame : resync badFilter (a ++ [b]) = _ := resync_good (by rw [happ, ha]; decide)
      rw [hsame] at hstop
      rw [← (Prod.mk.inj hstop).1, happ, ha] at hsize
      exact absurd hsize (by decide)
    have hlast := read_size_snoc ha hone
    cases hb : badFilter (read_size (a ++ [b])).pack_size with
    | false =>
      obtain ⟨-, rfl⟩ := Prod.mk.inj ((resync_good hb).symm.trans hstop)
      rcases hlast with ⟨hrefused, -⟩ | hlast
      · rw [hrefused] at hsize
        exact absurd hsize (by decide)
      · exact ⟨by rw [hlast, List.length_append, List.length_singleton], hsize, hgood⟩
    | true =>
      have htwo := two_le_length hone
      rw [resync_bad hb htwo] at hstop
      rcases hlast with ⟨-, hlength⟩ | hlast
      · rw [List.drop_eq_nil_of_le (by
          rw [List.length_append, hlength, List.length_singleton]; decide)] at hstop
        have hstop : (ReadSize.only (-1), []) = (read_size stop, stop) := hstop
        rw [← (Prod.mk.inj hstop).1] at hsize
        exact absurd hsize (by decide)
      · rw [Kept, read_size_append hone, hlast, List.take_left' (by simp)] at hkept
        have hlossless := hkept hb
        rw [Lossless, hstop] at hlossless
        exact ⟨hlossless hsize, hsize, hgood⟩

theorem Stops.drained {stop b : List UInt8} (h : Stops bs stop fut)
    (hd : framer.Drains (bs ++ b) xs rest) : framer.Drains (stop ++ b) xs rest := by
  obtain ⟨ys, r, hd'⟩ := framer.exists_drains (stop ++ b)
  obtain ⟨rfl, rfl⟩ := hd.unique (h.drains hd')
  exact hd'

/-- What the loop over the bytes of a header comes to. -/
inductive Filled (fut : List UInt8) (xs : List (List UInt8)) (rest : List UInt8) :
    ReadSize × List UInt8 × List UInt8 → Prop
  | wait {header : List UInt8} (hsize : (read_size header).pack_size = -1) (hxs : xs = [])
      (hrest : rest = header) : Filled fut xs rest (read_size header, header, [])
  | begun {header buffer : List UInt8} (h : Begun header)
      (hclean : framer.Along Clean (header ++ buffer ++ fut))
      (hd : framer.Drains (header ++ buffer) xs rest) :
      Filled fut xs rest (read_size header, header, buffer)

theorem fillHeader_spec (buffer : List UInt8) : ∀ header : List UInt8, buffer ≠ [] →
    (read_size header).pack_size = -1 → framer.Along Clean (header ++ buffer ++ fut) →
    framer.Drains (header ++ buffer) xs rest →
    ∃ res, fillHeader false header buffer = .ok res ∧ Filled fut xs rest res := by
  induction buffer with
  | nil => exact fun _ hne => absurd rfl hne
  | cons b buffer ih =>
    intro header _ hsize hclean hd
    have hroom : ¬ header.length ≥ HEADERSIZE := by
      have hclean := hclean.here
      rw [List.append_assoc] at hclean
      have hroom := hclean.room hsize
      rw [List.length_append, List.length_cons, HEADERSIZE] at hroom
      rw [HEADERSIZE]
      omega
    rw [List.append_cons] at hclean hd
    rw [List.append_assoc] at hclean
    obtain ⟨stop, hstop, hs⟩ := readHead_spec agrees_badFilter hclean
    have hd := hs.drained hd
    rw [fillHeader, if_neg hroom]
    rcases hs.sized with hwait | hthere
    · by_cases hnil : buffer = []
      · subst hnil
        rw [List.append_nil] at hd
        obtain ⟨rfl, rfl⟩ := hd.unique (.stop (takePacket_wait hwait))
        refine ⟨_, Fuel.bind_eq_ok.mpr ⟨_, hstop, if_pos (.inr rfl)⟩, .wait hwait rfl rfl⟩
      · obtain ⟨res, hu, hres⟩ := ih stop hnil hwait
          (by rw [List.append_assoc]; exact hs.clean) hd
        refine ⟨res, Fuel.bind_eq_ok.mpr ⟨_, hstop, ?_⟩, hres⟩
        dsimp only
        rw [if_neg (by rw [hwait]; simp [hnil]), hu]
    · refine ⟨_, Fuel.bind_eq_ok.mpr ⟨_, hstop, if_pos (.inl hthere)⟩, .begun ?_ ?_ hd⟩
      · exact begun_of_resync hsize hclean.here.kept (Except.ok.inj hstop) hs.good hthere
      · rw [List.append_assoc]
        exact hs.clean

/-! ## A chunk -/

/-- A chunk for which nothing has been kept. -/
theorem filter_data_new {c : List UInt8} {q₀ : Option Queue} (hfd : pend fd = none)
    (hclean : framer.Along Clean (c ++ fut)) (hd : framer.Drains c xs rest)
    (hq : Holds q pend ring) (hfind : find_uncomplete q₀ fd = (none, q)) :
    ∃ ret q' uc' ring', filter_data_ fd c false q₀ = .ok (ret, q') ∧ Gives fd ring xs ret ring' ∧
      Pending fd uc' rest ∧ Holds q' (update pend fd uc') ring' := by
  obtain ⟨stop, hhead, hs⟩ := readHead_spec agrees_badFilter hclean
  rw [filter_data_, hfind]
  cases hs.front hd with
  | wait hsize hxs hrest =>
    subst hxs hrest
    obtain ⟨q', uc, hu, hp, hq'⟩ := saveHeader_spec hsize hs.clean.here hq hfd
    refine ⟨_, q', uc, _, Fuel.bind_eq_ok.mpr ⟨_, hhead, ?_⟩, .nothing, hp, hq'⟩
    dsimp only
    rw [if_pos hsize]
    exact Fuel.bind_eq_ok.mpr ⟨_, hu, rfl⟩
  | short hsize hshort hxs hrest =>
    subst hxs hrest
    obtain ⟨q', uc, hu, hp, hq'⟩ := savePayload_spec hsize hs.good hshort hq hfd
    refine ⟨_, q', uc, _, Fuel.bind_eq_ok.mpr ⟨_, hhead, ?_⟩, .nothing, hp, hq'⟩
    dsimp only
    rw [if_neg (by omega), if_pos ⟨hshort, by decide⟩]
    exact Fuel.bind_eq_ok.mpr ⟨_, hu, rfl⟩
  | packet ys hsize hfits hstep hxs hdrains =>
    subst hxs
    have hlength := length_payload (r := read_size stop)
      (a := stop.drop (read_size stop).pack_head_length) (by omega)
    have hbehind := hs.behind hstep
    generalize hb : payload (read_size stop) (stop.drop (read_size stop).pack_head_length) = b at *
    by_cases hall : ((stop.drop (read_size stop).pack_head_length).length : Int) =
        (read_size stop).pack_size
    · rw [List.drop_eq_nil_of_le (by omega)] at hdrains
      obtain ⟨rfl, rfl⟩ := hdrains.unique (.stop rfl)
      refine ⟨.data fd b b.length, q, none, _, Fuel.bind_eq_ok.mpr ⟨_, hhead, ?_⟩, .data b, .none,
        ?_⟩
      · dsimp only
        rw [if_neg (by omega), if_neg (by omega), if_pos hall, hall, hb, hlength,
          Int.toNat_of_nonneg hsize]
      · rw [← hfd, Function.update_eq_self]
        exact hq
    · obtain ⟨q₁, hu₁, hq₁⟩ := hq.push_data b hsize true
      have hnil : (stop.drop (read_size stop).pack_head_length).drop
          (read_size stop).pack_size.toNat ≠ [] := by
        rw [Ne, List.drop_eq_nil_iff]
        omega
      obtain ⟨q', uc', hu, hp, hq'⟩ := push_more_spec _ _ fut q₁ _ ys rest (Nat.le_refl _) hnil
        hbehind hdrains hq₁ hfd
      refine ⟨_, q', uc', _, Fuel.bind_eq_ok.mpr ⟨_, hhead, ?_⟩, .more _, hp, ?_⟩
      · dsimp only
        rw [if_neg (by omega), if_neg (by omega), if_neg hall, hb]
        exact Fuel.bind_eq_ok.mpr ⟨q₁, hu₁, Fuel.bind_eq_ok.mpr ⟨q', hu, rfl⟩⟩
      · rw [← Int.toNat_of_nonneg hsize, ← hlength, List.append_assoc] at hq'
        exact hq'

/-- A chunk gives the packets that are complete with it. -/
theorem filter_data_spec {p c : List UInt8} (hne : c ≠ []) (hp : Pending fd (pend fd) p)
    (hclean : framer.Along Clean (p ++ c ++ fut)) (hd : framer.Drains (p ++ c) xs rest)
    (hq : Holds q pend ring) :
    ∃ ret q' uc' ring', filter_data_ fd c false q = .ok (ret, q') ∧ Gives fd ring xs ret ring' ∧
      Pending fd uc' rest ∧ Holds q' (update pend fd uc') ring' := by
  obtain ⟨q₁, hfind, hq₁⟩ := hq.find_uncomplete fd
  have hfd : update pend fd none fd = none := Function.update_self ..
  suffices h : ∃ ret q' uc' ring', filter_data_ fd c false q = .ok (ret, q') ∧
      Gives fd ring xs ret ring' ∧ Pending fd uc' rest ∧
      Holds q' (update (update pend fd none) fd uc') ring' by
    obtain ⟨ret, q', uc', ring', hu, hgives, hp', hq'⟩ := h
    rw [Function.update_idem] at hq'
    exact ⟨ret, q', uc', ring', hu, hgives, hp', hq'⟩
  generalize update pend fd none = pend₁ at hq₁ hfd
  generalize pend fd = kept at hp hfind
  cases hp with
  | none => exact filter_data_new hfd hclean hd hq₁ hfind
  | header hid hread hheader hsize =>
    rename_i uc
    subst hheader
    obtain ⟨⟨r, header, buffer⟩, hu, hres⟩ := fillHeader_spec c uc.header hne hsize hclean hd
    rw [filter_data_, hfind]
    dsimp only
    rw [if_pos hread]
    cases hres with
    | wait hsize hxs hrest =>
      subst hxs hrest
      have hq' := hq₁.save_uncomplete hfd { uc with header := rest }
      refine ⟨_, _, _, _, Fuel.bind_eq_ok.mpr ⟨_, hu, if_pos hsize⟩, .nothing, ?_, hq'⟩
      exact .header rfl hread rfl hsize
    | begun h hclean hd =>
      have hsize := h.size
      have hnone : (([] : List UInt8).length : Int) ≤ (read_size header).pack_size := hsize
      have hbody : (uc.start false (read_size header) header).body =
          (newUncomplete fd (read_size header)).fill [] := by
        rw [fill_nil, ← hid]
        rfl
      have hraw := List.append_nil header
      obtain ⟨ret, q', uc', ring', hu', hgives, hp', hq'⟩ := fillPayload_spec h hnone hbody
        (by rw [hraw]; exact hclean) (by rw [hraw]; exact hd) hq₁ hfd
      refine ⟨ret, q', uc', ring', Fuel.bind_eq_ok.mpr ⟨_, hu, ?_⟩, hgives, hp', hq'⟩
      dsimp only
      rw [if_neg (by omega), malloc, if_neg (by omega)]
      exact hu'
  | payload hlen hsize hgood hraw huc =>
    rename_i uc hb raw
    have hread : uc.read = raw.length := (congrArg Uncomplete.read huc).trans (Int.zero_add _)
    rw [filter_data_, hfind]
    dsimp only
    rw [if_neg (by omega)]
    exact fillPayload_spec ⟨hlen, hsize, hgood⟩ (by omega) huc hclean hd hq₁ hfd

end SkynetHotfix.Netpack
