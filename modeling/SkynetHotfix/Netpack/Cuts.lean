import SkynetHotfix.Netpack.Stream

/-!
# Cuts of a stream

The cuts of a stream deliver the same packets when no rest of it has a header at
which the three loops differ (`same_of_clean`): a size of 64 bits that becomes
a code of `read_size` when it is cut down, or a header that is longer than what
is kept of it. With the first, a stream that comes byte by byte is a fault
(`faults_bytewise`). With the second, bytes of the header are lost, which nobody
sees where they would have been passed over.
-/

namespace SkynetHotfix.Netpack

open Function (update)

variable {fd : Int} {q : Option Queue} {pend : Int → Option Uncomplete} {bs p rest : List UInt8}
  {xs : List (List UInt8)} {s : List UInt8}

/-- Every cut of a stream delivers the same packets, and their sizes are in the bounds. -/
def SameForEveryCut (q : Option Queue) (fd : Int) (s : List UInt8) : Prop :=
  ∃ out : List Pack, (∀ np ∈ out, 0 ≤ np.size ∧ np.size ≤ MAX_PACKSIZE) ∧
    ∀ cut : List (List UInt8), (∀ c ∈ cut, c ≠ []) → cut.flatten = s →
      ∃ q', receiveAll false q (cut.map (fd, ·)) = .ok (out, q')

/-! ## Streams without a bad header -/

theorem sizes_of_drains (h : framer.Drains bs xs rest) :
    ∀ x ∈ xs, (x.length : Int) ≤ MAX_PACKSIZE := by
  induction h with
  | stop _ => exact fun x hx => absurd hx List.not_mem_nil
  | @next bs r rest out outs hs _ ih =>
    intro x hx
    rcases List.mem_append.mp hx with hx | hx
    · obtain ⟨-, ⟨-, rfl, -⟩ | ⟨hsize, hgood, hlen, rfl, -⟩⟩ := takePacket_some hs
      · cases hx
      · have hpayload := length_payload (r := read_size bs)
          (a := bs.drop (read_size bs).pack_head_length) (by rw [List.length_drop]; omega)
        have hbad : ¬ (read_size bs).pack_size > MAX_PACKSIZE := fun hmax =>
          Bool.false_ne_true (hgood.symm.trans (badFilter_iff.mpr (.inr hmax)))
        rw [List.mem_singleton.mp hx, hpayload, Int.toNat_of_nonneg hsize]
        omega
    · exact ih x hx

theorem streamOf_map (cut : List (List UInt8)) :
    streamOf fd (cut.map (fd, ·)) = cut.flatten := by
  induction cut with
  | nil => rfl
  | cons c cut ih => rw [List.map_cons, streamOf_cons_self, ih, List.flatten_cons]

theorem same_of_clean (hq : Holds q pend []) (hfd : pend fd = none)
    (hclean : framer.Along Clean s) : SameForEveryCut q fd s := by
  obtain ⟨xs, rest, hd⟩ := framer.exists_drains s
  refine ⟨xs.map (packOf fd), fun np hnp => ?_, fun cut hcut hflat => ?_⟩
  · obtain ⟨x, hx, rfl⟩ := List.mem_map.mp hnp
    exact ⟨Int.natCast_nonneg _, sizes_of_drains hd x hx⟩
  · have hk : Keeps (· = fd) pend fun _ => [] := by
      rintro _ rfl
      rw [hfd]
      exact .none
    have hevents : ∀ e ∈ cut.map (fd, ·), e.1 = fd ∧ e.2 ≠ [] := by
      intro e he
      obtain ⟨c, hc, rfl⟩ := List.mem_map.mp he
      exact ⟨rfl, hcut c hc⟩
    have hstream : streamOf fd (cut.map (fd, ·)) = s := by rw [streamOf_map, hflat]
    obtain ⟨out, q', -, hu, -, hother, hout⟩ := receiveAll_spec _ hevents hk
      (by rintro _ rfl; rw [List.nil_append, hstream]; exact hclean) hq
    obtain ⟨ys, rest', hd', hys⟩ := hout fd rfl
    rw [List.nil_append, hstream] at hd'
    obtain ⟨rfl, -⟩ := hd.unique hd'
    have hall : deliveredTo fd out = out := by
      refine List.filter_eq_self.mpr fun np hnp => decide_eq_true ?_
      by_contra hne
      have hnil := hother np.id hne
      rw [deliveredTo, List.filter_eq_nil_iff] at hnil
      exact hnil np hnp (decide_eq_true rfl)
    rw [hall] at hys
    exact ⟨q', hys ▸ hu⟩

/-! ## Streams with a bad header -/

theorem Kept.of_append {a b : List UInt8} (h : Kept (a ++ b)) : Kept a := by
  intro hbad
  have hne : read_size a ≠ .only (-1) := fun e => by
    rw [e] at hbad
    exact absurd hbad (by decide)
  have hseen := two_le_length hne
  rw [Kept, read_size_append hne] at h
  have h := h hbad
  by_cases htwo : read_size a = .only (-2)
  · rw [htwo] at h ⊢
    exact h
  · rwa [List.take_append_of_le_length (head_length_le hne htwo).2] at h

/-- A header that is seen does not change with what comes. -/
theorem Clean.append {a r : List UInt8} {out : List (List UInt8)} (h : Clean a)
    (hs : framer.step a = some (out, r)) (b : List UInt8) : Clean (a ++ b) := by
  obtain ⟨hne, hcases⟩ := takePacket_some hs
  have happ := read_size_append hne b
  refine ⟨by rw [happ]; exact h.sized, fun hsize => ?_, fun hbad => ?_⟩
  · rw [happ] at hsize
    rcases hcases with ⟨hbad, -, -⟩ | ⟨hnonneg, -⟩
    · rw [hsize] at hbad
      exact absurd hbad (by decide)
    · omega
  · rw [happ] at hbad ⊢
    have hkept := h.kept hbad
    by_cases htwo : read_size a = .only (-2)
    · rw [htwo] at hkept ⊢
      exact hkept
    · rwa [List.take_append_of_le_length (head_length_le hne htwo).2]

/-- Where the loop of `filter_data_` stops, if nothing is lost. -/
theorem resync_kept (n : Nat) : ∀ bs : List UInt8, bs.length ≤ n → framer.Along Kept bs →
    ∃ stop, resync badFilter bs = (read_size stop, stop) ∧
      badFilter (read_size stop).pack_size = false ∧ stop.length ≤ bs.length ∧
      framer.Along Kept stop ∧ (framer.Along Clean stop → framer.Along Clean bs) := by
  induction n with
  | zero =>
    intro bs hn hkept
    rw [List.length_eq_zero_iff.mp (Nat.le_zero.mp hn)] at hkept ⊢
    exact ⟨[], rfl, by decide, Nat.le_refl _, hkept, fun h => h⟩
  | succ n ih =>
    intro bs hn hkept
    cases hb : badFilter (read_size bs).pack_size with
    | false => exact ⟨bs, resync_good hb, hb, Nat.le_refl _, hkept, fun h => h⟩
    | true =>
      have hne : read_size bs ≠ .only (-1) := fun e => by
        rw [e] at hb
        exact absurd hb (by decide)
      have hlen := two_le_length hne
      have hstep : framer.step bs = some ([], bs.drop WEBSOCKET_HEADER_LEN) := takePacket_bad hb
      have hdrop : (bs.drop WEBSOCKET_HEADER_LEN).length = bs.length - 2 := List.length_drop
      obtain ⟨stop, hstop, hgood, hle, hk, hback⟩ := ih (bs.drop WEBSOCKET_HEADER_LEN) (by omega)
        (hkept.step hstep)
      have hclean : Clean bs := by
        have hbad := badFilter_iff.mp hb
        rw [MAX_PACKSIZE] at hbad
        exact ⟨by omega, by omega, hkept.here⟩
      exact ⟨stop, by rw [resync_bad hb hlen, hstop], hgood, by omega, hk,
        fun h => .of_step hclean hstep (hback h)⟩

theorem along_nil : framer.Along Clean [] :=
  .of_stop ⟨by decide, fun _ => by decide, fun hb => absurd hb (by decide)⟩ rfl

/-- A header with nothing behind it is clean. -/
theorem Begun.along (h : Begun bs) (hkept : Kept bs) : framer.Along Clean bs := by
  have hsize := h.size
  have hclean : Clean bs := ⟨by omega, by omega, hkept⟩
  by_cases hlen : bs.length < (read_size bs).pack_head_length + (read_size bs).pack_size.toNat
  · exact .of_stop hclean (takePacket_short hsize h.good hlen)
  · have hstep : framer.step bs = _ := takePacket_packet hsize h.good (Nat.not_lt.mp hlen)
    have hnil : bs.drop ((read_size bs).pack_head_length + (read_size bs).pack_size.toNat) = [] :=
      List.drop_eq_nil_of_le (by rw [h.len]; exact Nat.le_add_right ..)
    rw [hnil] at hstep
    exact .of_step hclean hstep along_nil

/-- A byte with which a rest is not clean any more is a fault. -/
theorem fault_of_byte {uc : Uncomplete} {b : UInt8} (hpend : pend fd = some uc)
    (hread : uc.read < 0) (hheader : uc.header = p) (hsize : (read_size p).pack_size = -1)
    (hkept : framer.Along Kept (p ++ [b])) (hclean : ¬ framer.Along Clean (p ++ [b]))
    (hq : Holds q pend []) : ∃ e, receive false q fd [b] = .error e := by
  obtain ⟨q₁, hfind, -⟩ := hq.find_uncomplete fd
  rw [hpend] at hfind
  rw [receive, lfilter, filter_data_, hfind]
  dsimp only
  rw [if_pos hread, hheader, fillHeader]
  by_cases hfull : p.length ≥ HEADERSIZE
  · rw [if_pos hfull]
    exact ⟨_, rfl⟩
  · rw [if_neg hfull]
    obtain ⟨stop, hstop, hgood, hle, hk, hback⟩ := resync_kept _ _ (Nat.le_refl _) hkept
    have hhead : readHead false badFilter (p ++ [b]) = .ok (read_size stop, stop) := by
      rw [← hstop]
      rfl
    rw [hhead, Fuel.ok_bind]
    dsimp only
    rw [if_pos (.inr rfl), Fuel.ok_bind]
    dsimp only
    have hbad : (read_size stop).pack_size ≤ -3 := by
      by_contra hsized
      have hgood' :
          ¬ ((read_size stop).pack_size = -2 ∨ (read_size stop).pack_size > MAX_PACKSIZE) := fun h =>
        Bool.false_ne_true (hgood.symm.trans (badFilter_iff.mpr h))
      refine hclean (hback ?_)
      by_cases hwait : (read_size stop).pack_size = -1
      · rw [List.length_append, List.length_singleton] at hle
        exact .of_stop ⟨by omega, fun _ => by omega, hk.here⟩ (takePacket_wait hwait)
      · have hbegun := begun_of_resync (b := b) hsize (by rw [List.append_nil]; exact hkept.here)
          hstop hgood (by omega)
        exact hbegun.along hk.here
    rw [if_neg (by omega), malloc, if_pos (by omega)]
    exact ⟨_, rfl⟩

/-- A byte, when what is kept is clean with it or not. -/
theorem receive_byte {b : UInt8} (hp : Pending fd (pend fd) p)
    (hkept : framer.Along Kept (p ++ [b])) (hclean : ¬ framer.Along Clean (p ++ [b]))
    (hq : Holds q pend []) : ∃ e, receive false q fd [b] = .error e := by
  generalize hpend : pend fd = kept at hp
  cases hp with
  | none =>
    have hone : Clean [b] := ⟨show ¬ (-1 : Int) ≤ -3 by decide, fun _ => show 1 ≤ 1024 by decide,
      hkept.here⟩
    exact absurd (.of_stop hone rfl) hclean
  | header hid hread hheader hsize =>
    exact fault_of_byte hpend hread hheader hsize hkept hclean hq
  | @payload uc hb raw hlen hsize hgood hraw _ =>
    have hbegun : Begun hb := ⟨hlen, hsize, hgood⟩
    rw [List.append_assoc] at hkept hclean
    have hread := hbegun.read (raw ++ [b])
    have hhere : Clean (hb ++ (raw ++ [b])) :=
      ⟨by rw [hread]; omega, by rw [hread]; omega, hkept.here⟩
    obtain ⟨xs, rest, hd⟩ := framer.exists_drains (hb ++ (raw ++ [b]))
    refine absurd ?_ hclean
    cases hbegun.front hd with
    | wait hwait _ _ =>
      rw [hread] at hwait
      omega
    | short _ _ hxs hrest =>
      subst hxs hrest
      exact .of_stop hhere hd.waits
    | packet ys _ _ hstep _ _ =>
      have hnil : (raw ++ [b]).drop (read_size hb).pack_size.toNat = [] := by
        refine List.drop_eq_nil_of_le ?_
        rw [List.length_append, List.length_singleton]
        omega
      rw [hread, hbegun.drop, hnil] at hstep
      exact .of_step hhere hstep along_nil

/-- Byte by byte, a stream with a bad header is a fault. -/
theorem faults_bytewise (t : List UInt8) : ∀ {q : Option Queue} {pend : Int → Option Uncomplete}
    {p : List UInt8}, Pending fd (pend fd) p → framer.Along Clean p → Holds q pend [] →
    framer.Along Kept (p ++ t) → ¬ framer.Along Clean (p ++ t) →
    ∃ e, receiveAll false q ((t.map fun b => [b]).map (fd, ·)) = .error e := by
  induction t with
  | nil =>
    intro q pend p _ hp _ _ hclean
    rw [List.append_nil] at hclean
    exact absurd hp hclean
  | cons b t ih =>
    intro q pend p hp _ hq hkept hclean
    rw [List.append_cons] at hkept hclean
    have hkept₁ : framer.Along Kept (p ++ [b]) := hkept.of_append fun _ => Kept.of_append
    rw [List.map_cons, List.map_cons, receiveAll]
    by_cases hclean₁ : framer.Along Clean (p ++ [b])
    · obtain ⟨xs, rest, hd⟩ := framer.exists_drains (p ++ [b])
      have hclean₀ : framer.Along Clean (p ++ [b] ++ []) := by rwa [List.append_nil]
      have hrest := hclean₀.drained hd
      rw [List.append_nil] at hrest
      obtain ⟨q₁, uc, hu, hp₁, hq₁⟩ := receive_spec (List.cons_ne_nil b []) hp hclean₀ hd hq
      have hpend := Function.update_self fd uc pend
      obtain ⟨e, he⟩ := ih (hpend.symm ▸ hp₁) hrest hq₁ (hkept.drained hd)
        fun h => hclean (hclean₁.of_drained hd (fun _ _ _ h hs => h.append hs t) h)
      rw [hu, Fuel.ok_bind]
      dsimp only
      rw [he]
      exact ⟨_, rfl⟩
    · obtain ⟨e, he⟩ := receive_byte hp hkept₁ hclean₁ hq
      rw [he]
      exact ⟨_, rfl⟩

theorem flatten_singletons (s : List UInt8) : (s.map fun b => [b]).flatten = s := by
  induction s with
  | nil => rfl
  | cons b s ih => rw [List.map_cons, List.flatten_cons, ih, List.singleton_append]

/-- All cuts of a stream without a bad header deliver the same; of the others only those do that
have a header in the bytes of one that is passed over. -/
theorem cuts_agree {q : Option Queue} (hq : Reached q) (hpop : (lpop q).1 = none)
    (hfd : (find_uncomplete q fd).1 = none) (s : List UInt8) :
    (framer.Along Clean s → SameForEveryCut q fd s) ∧
    (framer.Along Kept s → SameForEveryCut q fd s → framer.Along Clean s) := by
  obtain ⟨pend, hq, hfind⟩ := hq.empty_ring hpop
  rw [hfind] at hfd
  refine ⟨same_of_clean hq hfd, fun hkept hsame => ?_⟩
  by_contra hclean
  have hp : Pending fd (pend fd) [] := by
    rw [hfd]
    exact .none
  obtain ⟨e, he⟩ := faults_bytewise s hp along_nil hq hkept hclean
  obtain ⟨out, -, hcuts⟩ := hsame
  have hbytes : ∀ c ∈ s.map fun b => [b], c ≠ [] := by
    intro c hc
    obtain ⟨b, -, rfl⟩ := List.mem_map.mp hc
    exact List.cons_ne_nil _ _
  obtain ⟨q', hu⟩ := hcuts _ hbytes (flatten_singletons s)
  cases he.symm.trans hu

/-- A header that is passed over and one byte of text. -/
theorem cuts_agree_reserved : SameForEveryCut none 7 [0xFF, 0x01, 0x81, 0x01, 0x41] := by
  have h₁ : Clean [0xFF, 0x01, 0x81, 0x01, 0x41] :=
    ⟨by decide, fun h => absurd h (by decide), fun _ h => absurd h (by decide)⟩
  have h₂ : Clean [0x81, 0x01, 0x41] :=
    ⟨by decide, fun h => absurd h (by decide), fun h => absurd h (by decide)⟩
  exact (cuts_agree .empty rfl rfl _).1 (.of_step h₁ rfl (.of_step h₂ rfl along_nil))

/-- In one piece the text in the header is delivered, byte by byte it is not; and a size of 64 bits
is a negative one. -/
theorem cuts_differ :
    (∃ q', receiveAll false none [(7, [0x82, 0x7F, 0x82, 1, 0x41, 0x82, 0x7F, 0xFF, 0xFF, 0xFF])] =
      .ok ([packOf 7 [0x41]], q')) ∧
    (∃ q', receiveAll false none ([0x82, 0x7F, 0x82, 1, 0x41, 0x82, 0x7F, 0xFF, 0xFF, 0xFF].map
      fun b => (7, [b])) = .ok ([], q')) ∧
    receiveAll false none [(7, [0x82, 0x7F, 0xFF, 0xFF, 0xFF, 0xFF, 0xFF, 0xFF, 0xFF, 0xFD])] =
      .error (some .negative) := by
  refine ⟨⟨_, rfl⟩, ⟨_, rfl⟩, rfl⟩

end SkynetHotfix.Netpack
