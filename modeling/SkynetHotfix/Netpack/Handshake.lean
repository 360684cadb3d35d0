import SkynetHotfix.Netpack.Stream

/-!
# Requests of the handshake

`get_http_header` finds the end of a request in the bytes that there are, if
there are three at least: with fewer the number of turns is one below zero, and
the scan leaves the buffer (`overread_short`). What has come of a request is
kept as a header, which has room for `HEADERSIZE` bytes. A request is delivered
when neither happens, and only then (`handshake_delivers`).
-/

namespace SkynetHotfix.Netpack

open Function (update)

def CRLFCRLF : List UInt8 := [13, 10, 13, 10]

/-- The bytes up to the first empty line. -/
structure Request (req : List UInt8) : Prop where
  ends : CRLFCRLF <:+ req
  first : ¬ CRLFCRLF <:+: req.dropLast

/-! ## The search -/

variable {req p : List UInt8}

/-- A turn at which the empty line does not begin. -/
theorem strnpos_turn {c : UInt8} {haystack : List UInt8} (h : ¬ CRLFCRLF <+: c :: haystack)
    (hlen : 4 ≤ haystack.length + 1) (n i : Nat) :
    strnpos CRLFCRLF (n + 1) i (c :: haystack) = strnpos CRLFCRLF n (i + 1) haystack := by
  have hlen' : ¬ haystack.length + 1 < CRLFCRLF.length := Nat.not_lt.mpr hlen
  have htake : ¬ (c :: haystack).take CRLFCRLF.length = CRLFCRLF :=
    fun he => h (he ▸ List.take_prefix ..)
  rw [strnpos, if_neg hlen', if_neg htake, ite_self]

theorem strnpos_found {haystack : List UInt8} (h : CRLFCRLF <+: haystack) (n i : Nat) :
    strnpos CRLFCRLF (n + 1) i haystack = .ok i := by
  obtain ⟨t, rfl⟩ := h
  have hlen : ¬ ([10, 13, 10] ++ t).length + 1 < CRLFCRLF.length := by
    rw [List.length_append, Nat.not_lt, Nat.add_right_comm]
    exact Nat.le_add_right 4 _
  exact (if_pos rfl).trans ((if_neg hlen).trans (if_pos rfl))

/-- Bytes without an empty line. -/
theorem strnpos_none (n : Nat) : ∀ (i : Nat) (haystack : List UInt8), haystack.length = n + 3 →
    ¬ CRLFCRLF <:+: haystack → strnpos CRLFCRLF n i haystack = .ok (-1) := by
  induction n with
  | zero => exact fun _ _ _ _ => rfl
  | succ n ih =>
    intro i haystack hlen h
    cases haystack with
    | nil => cases hlen
    | cons c haystack =>
      rw [List.length_cons] at hlen
      rw [strnpos_turn (fun hp => h hp.isInfix) (by omega)]
      exact ih (i + 1) haystack (by omega) fun hi => h (hi.trans (List.suffix_cons ..).isInfix)

/-- Bytes with an empty line at their end. -/
theorem strnpos_ends (x : List UInt8) : ∀ i : Nat, ¬ CRLFCRLF <:+: (x ++ CRLFCRLF).dropLast →
    strnpos CRLFCRLF (x.length + 1) i (x ++ CRLFCRLF) = .ok ((i + x.length : Nat) : Int) := by
  induction x with
  | nil => exact fun i _ => strnpos_found (List.prefix_refl _) 0 i
  | cons c x ih =>
    intro i h
    have hne : x ++ CRLFCRLF ≠ [] := List.append_ne_nil_of_right_ne_nil _ (List.cons_ne_nil _ _)
    have hturn : ¬ CRLFCRLF <+: c :: (x ++ CRLFCRLF) := by
      intro hp
      have hle : CRLFCRLF.length ≤ (c :: (x ++ CRLFCRLF)).dropLast.length := by
        simp
      exact h (List.prefix_of_prefix_length_le hp (List.dropLast_prefix _) hle).isInfix
    rw [List.cons_append, List.dropLast_cons_of_ne_nil hne] at h
    rw [List.cons_append, List.length_cons, strnpos_turn hturn (by simp [CRLFCRLF]),
      ih (i + 1) fun hi => h (hi.trans (List.suffix_cons ..).isInfix)]
    congr 2
    omega

/-- With fewer bytes than the needle has, the scan goes on behind them. -/
theorem strnpos_overread (n : Nat) : ∀ (i : Nat) (haystack : List UInt8), haystack.length < n →
    haystack.length < 4 → strnpos CRLFCRLF n i haystack = .error (some .overread) := by
  induction n with
  | zero => exact fun _ _ h => absurd h (Nat.not_lt_zero _)
  | succ n ih =>
    intro i haystack hn hlen
    cases haystack with
    | nil => rfl
    | cons c haystack =>
      rw [List.length_cons] at hn hlen
      have hshort : haystack.length + 1 < CRLFCRLF.length := hlen
      rw [strnpos, if_pos hshort, ih (i + 1) haystack (by omega) (by omega), ite_self]

theorem Request.length (h : Request req) : 4 ≤ req.length := by
  obtain ⟨x, rfl⟩ := h.ends
  rw [List.length_append]
  exact Nat.le_add_left ..

theorem Request.prefix_dropLast (hp : p <+: req) (hne : p ≠ req) : p <+: req.dropLast := by
  refine List.prefix_of_prefix_length_le hp (List.dropLast_prefix _) ?_
  have hlt := Nat.lt_of_le_of_ne hp.length_le fun he => hne (hp.eq_of_length he)
  rw [List.length_dropLast]
  omega

theorem websocket_strnpos_eq {haystack : List UInt8} (h : 3 ≤ haystack.length)
    (hlt : haystack.length < 2 ^ 32) : websocket_strnpos haystack CRLFCRLF =
      strnpos CRLFCRLF (haystack.length - 3) 0 haystack := by
  have hturns : (haystack.length + 2 ^ 32 - CRLFCRLF.length + 1) % 2 ^ 32 = haystack.length - 3 := by
    have hneedle : CRLFCRLF.length = 4 := rfl
    omega
  rw [websocket_strnpos, hturns]

/-- The header of a request is all of it. -/
theorem get_http_header_request (h : Request req) (hlt : req.length < 2 ^ 32) :
    get_http_header req = .ok req.length := by
  have hlen := h.length
  have hfirst := h.first
  obtain ⟨x, rfl⟩ := h.ends
  have hx : (x ++ CRLFCRLF).length = x.length + 4 := List.length_append
  have hfound : websocket_strnpos (x ++ CRLFCRLF) CRLFCRLF = .ok (x.length : Int) := by
    rw [websocket_strnpos_eq (by omega) hlt, hx]
    have hends := strnpos_ends x 0 hfirst
    rwa [Nat.zero_add] at hends
  refine Fuel.bind_eq_ok.mpr ⟨_, hfound, ?_⟩
  rw [if_neg (by omega), hx]
  rfl

/-- A request that is not complete has no header. -/
theorem get_http_header_prefix (h : Request req) (hp : p <+: req) (hne : p ≠ req)
    (hlen : 3 ≤ p.length) (hlt : p.length < 2 ^ 32) : get_http_header p = .ok (-1) := by
  have hnone : websocket_strnpos p CRLFCRLF = .ok (-1) := by
    rw [websocket_strnpos_eq hlen hlt]
    refine strnpos_none _ 0 p (by omega) fun hi => h.first ?_
    exact hi.trans (Request.prefix_dropLast hp hne).isInfix
  exact Fuel.bind_eq_ok.mpr ⟨_, hnone, if_pos (by decide)⟩

/-- One byte or two. -/
theorem overread_short (hne : p ≠ []) (hlen : p.length < 3) :
    get_http_header p = .error (some .overread) := by
  have hpos := List.length_pos_iff.mpr hne
  have hneedle : CRLFCRLF.length = 4 := rfl
  have hover : websocket_strnpos p CRLFCRLF = .error (some .overread) :=
    strnpos_overread _ 0 p (by omega) (by omega)
  have hover : websocket_strnpos p [13, 10, 13, 10] = .error (some .overread) := hover
  rw [get_http_header, hover]
  rfl

/-! ## Chunks of a request -/

variable {fd : Int} {q : Option Queue} {pend : Int → Option Uncomplete}

/-- The bytes of a request that have come are kept as a header. -/
structure Waits (fd : Int) (req header : List UInt8) (uc : Option Uncomplete) : Prop where
  kept : ∃ u, uc = some u ∧ u.pack.id = fd ∧ u.read < 0 ∧ u.header = header
  begun : header <+: req
  short : header ≠ req
  three : 3 ≤ header.length
  room : header.length ≤ HEADERSIZE

/-- The size of a request: all of it, or not known yet. -/
def requestSize (req p : List UInt8) : Int := if p = req then req.length else -1

theorem readHead_request {bad : Int → Bool} (h : Request req) (hp : p <+: req)
    (hlen : 3 ≤ p.length) (hlt : p.length < 2 ^ 32) :
    readHead true bad p = .ok (.only (requestSize req p), p) := by
  have hsize : get_http_header p = .ok (requestSize req p) := by
    rw [requestSize]
    split
    · rename_i hall
      subst hall
      exact get_http_header_request h hlt
    · rename_i hne
      exact get_http_header_prefix h hp hne hlen hlt
  exact Fuel.bind_eq_ok.mpr ⟨_, hsize, rfl⟩

/-- The loop over the bytes of a header takes all of a chunk. -/
theorem fillHeader_request (h : Request req) (c : List UInt8) : ∀ header : List UInt8, c ≠ [] →
    header ++ c <+: req → 3 ≤ header.length → fillHeader true header c =
      if (header ++ c).length ≤ HEADERSIZE then
        .ok (.only (requestSize req (header ++ c)), header ++ c, [])
      else .error (some .overflow) := by
  induction c with
  | nil => exact fun _ hne => absurd rfl hne
  | cons b c ih =>
    intro header _ hp hthree
    by_cases hfull : header.length ≥ HEADERSIZE
    · rw [fillHeader, if_pos hfull, if_neg]
      rw [List.length_append, List.length_cons]
      omega
    · rw [fillHeader, if_neg hfull]
      rw [List.append_cons header b c] at hp ⊢
      have hb : header ++ [b] <+: req := (List.prefix_append _ c).trans hp
      have hlen : (header ++ [b]).length = header.length + 1 := by simp
      have hhead : readHead true badFilter (header ++ [b]) = _ :=
        readHead_request h hb (by omega) (by rw [HEADERSIZE] at hfull; omega)
      rw [hhead, Fuel.ok_bind]
      dsimp only
      by_cases hnil : c = []
      · subst hnil
        rw [if_pos (.inr rfl), List.append_nil, if_pos (by omega)]
      · -- more of the request follows, so its end has not been seen
        have hne : header ++ [b] ≠ req := by
          intro he
          have hlength := hp.length_le
          have hpos := List.length_pos_iff.mpr hnil
          rw [List.length_append, he] at hlength
          omega
        have hsize : ¬ ((ReadSize.only (requestSize req (header ++ [b]))).pack_size ≥ 0 ∨ c = []) := by
          rw [requestSize, if_neg hne]
          simp [ReadSize.only, hnil]
        rw [if_neg hsize]
        exact ih _ hnil hp (by omega)

/-- What a chunk does when it is one part of a request: it delivers the request with its last bytes,
is kept, or does not fit. -/
inductive Step (fd : Int) (req p : List UInt8) (pend : Int → Option Uncomplete) :
    Result (List Pack × Option Queue) → Prop
  | delivered {q' : Option Queue} (hall : p = req) (hfits : p.length ≤ HEADERSIZE) :
      Step fd req p pend (.ok ([packOf fd req], q'))
  | kept {q' : Option Queue} {uc : Option Uncomplete} (hw : Waits fd req p uc)
      (hq : Holds q' (update pend fd uc) []) : Step fd req p pend (.ok ([], q'))
  | overflow (hlen : HEADERSIZE < p.length) : Step fd req p pend (.error (some .overflow))

/-- A chunk that is too short for the scan. -/
theorem receive_short {c : List UInt8} (hne : c ≠ []) (hlen : c.length < 3) (hfd : pend fd = none)
    (hq : Holds q pend []) : receive true q fd c = .error (some .overread) := by
  obtain ⟨q₁, hfind, -⟩ := hq.find_uncomplete fd
  rw [receive, lfilter, filter_data_, hfind, hfd]
  dsimp only
  rw [readHead, if_pos rfl, overread_short hne hlen]
  rfl

/-- The whole of a request. -/
theorem receive_request (h : Request req) (hlt : req.length < 2 ^ 31) (hfd : pend fd = none)
    (hq : Holds q pend []) : ∃ q', receive true q fd req = .ok ([packOf fd req], q') := by
  obtain ⟨q₁, hfind, -⟩ := hq.find_uncomplete fd
  rw [hfd] at hfind
  have hlen := h.length
  have hhead : readHead true badFilter req = _ :=
    readHead_request h (List.prefix_refl req) (by omega) (by omega)
  have hsize : (ReadSize.only (requestSize req req)).pack_size = req.length := if_pos rfl
  have hhead₀ : (ReadSize.only (requestSize req req)).pack_head_length = 0 := rfl
  have hpayload : payload (ReadSize.only (requestSize req req)) req = req := by
    rw [payload, hsize, Int.toNat_natCast, List.take_length, decode_wsmask_data]
    rfl
  have hu : filter_data_ fd req true q = .ok (.data fd req req.length, q₁) := by
    rw [filter_data_, hfind]
    refine Fuel.bind_eq_ok.mpr ⟨_, hhead, ?_⟩
    dsimp only
    rw [hsize, hhead₀, List.drop_zero, if_neg (by omega), if_neg (fun hc => hc.2 rfl), if_pos rfl,
      hpayload]
  exact ⟨q₁, Fuel.bind_eq_ok.mpr ⟨_, hu, rfl⟩⟩

/-- The first part of a request. -/
theorem receive_first (h : Request req) {c : List UInt8} (hc : c <+: req) (hne : c ≠ req)
    (hthree : 3 ≤ c.length) (hlt : c.length < 2 ^ 31) (hfd : pend fd = none)
    (hq : Holds q pend []) : Step fd req c pend (receive true q fd c) := by
  obtain ⟨q₁, hfind, hq₁⟩ := hq.find_uncomplete fd
  rw [hfd] at hfind
  have hidem : update pend fd none = pend := by rw [← hfd, Function.update_eq_self]
  rw [hidem] at hq₁
  have hhead : readHead true badFilter c = _ := readHead_request h hc hthree (by omega)
  have hsize : (ReadSize.only (requestSize req c)).pack_size = -1 := if_neg hne
  have hu : lfilter q true (.data fd c) = (do
      let q ← saveHeader q₁ fd c
      .ok (.nothing, q)) := by
    rw [lfilter, filter_data_, hfind]
    dsimp only
    rw [hhead, Fuel.ok_bind]
    dsimp only
    rw [if_pos hsize]
  rw [receive, hu, saveHeader]
  by_cases hlen : c.length > HEADERSIZE
  · rw [if_pos hlen]
    exact .overflow hlen
  · rw [if_neg hlen]
    have hq' := hq₁.save_uncomplete hfd ⟨⟨fd, 0, []⟩, c, -1, fun _ => 0, false, 0⟩
    refine .kept ⟨⟨_, rfl, rfl, show (-1 : Int) < 0 by decide, rfl⟩, hc, hne, hthree, ?_⟩ hq'
    omega

/-- A part behind those that are kept. -/
theorem receive_more (h : Request req) {header c : List UInt8} (hw : Waits fd req header (pend fd))
    (hne : c ≠ []) (hc : header ++ c <+: req) (hq : Holds q pend []) :
    Step fd req (header ++ c) pend (receive true q fd c) := by
  obtain ⟨uc, huc, hid, hread, hheader⟩ := hw.kept
  obtain ⟨q₁, hfind, hq₁⟩ := hq.find_uncomplete fd
  rw [huc] at hfind
  have hfill := fillHeader_request h c header hne hc hw.three
  have hfd : update pend fd none fd = none := Function.update_self ..
  rw [receive, lfilter, filter_data_, hfind]
  dsimp only
  rw [if_pos hread, hheader, hfill]
  by_cases hlen : (header ++ c).length ≤ HEADERSIZE
  · rw [if_pos hlen, Fuel.ok_bind]
    dsimp only
    by_cases hall : header ++ c = req
    · have hsize : (ReadSize.only (requestSize req (header ++ c))).pack_size = req.length :=
        if_pos hall
      have hstart : uc.start true (ReadSize.only (requestSize req (header ++ c))) (header ++ c) =
          ⟨packOf uc.pack.id req, req, req.length, fun _ => 0, false, 0⟩ := by
        rw [Uncomplete.start, hsize, hall, if_pos rfl, Int.min_self, Int.toNat_natCast,
          List.take_length]
        rfl
      have hneed : fillPayload fd true ⟨packOf uc.pack.id req, req, req.length, fun _ => 0, false, 0⟩
          [] q₁ = .ok (.data fd req req.length, q₁) := by
        rw [fillPayload, packOf]
        dsimp only
        rw [Int.sub_self, if_neg (by decide), List.take_nil, fill_nil, List.drop_nil]
        rfl
      rw [if_neg (by rw [hsize]; omega), malloc, if_neg (by rw [hsize]; omega), Fuel.ok_bind, hstart,
        hneed]
      exact .delivered hall hlen
    · have hsize : (ReadSize.only (requestSize req (header ++ c))).pack_size = -1 := if_neg hall
      have hq' := hq₁.save_uncomplete hfd { uc with header := header ++ c }
      rw [Function.update_idem] at hq'
      have hthree := hw.three
      have hw' : Waits fd req (header ++ c) (some ⟨⟨fd, uc.pack.size, uc.pack.buffer⟩, header ++ c,
          uc.read, uc.mask, uc.ismask, uc.hasunmask_size⟩) :=
        ⟨⟨_, rfl, rfl, hread, rfl⟩, hc, hall, by rw [List.length_append]; omega, hlen⟩
      rw [if_pos hsize]
      exact .kept hw' hq'
  · rw [if_neg hlen]
    exact .overflow (Nat.not_le.mp hlen)

/-! ## All of a request -/

/-- The parts that are left of a request. -/
theorem receiveAll_request (h : Request req) (cut : List (List UInt8)) :
    ∀ {q : Option Queue} {pend : Int → Option Uncomplete} {header : List UInt8},
    Waits fd req header (pend fd) → Holds q pend [] → (∀ c ∈ cut, c ≠ []) →
    header ++ cut.flatten = req →
    if req.length ≤ HEADERSIZE then
      ∃ q', receiveAll true q (cut.map (fd, ·)) = .ok ([packOf fd req], q')
    else receiveAll true q (cut.map (fd, ·)) = .error (some .overflow) := by
  induction cut with
  | nil =>
    intro q pend header hw _ _ hcut
    rw [List.flatten_nil, List.append_nil] at hcut
    exact absurd hcut hw.short
  | cons c cut ih =>
    intro q pend header hw hq hcut hreq
    obtain ⟨hne, hcut⟩ := List.forall_mem_cons.mp hcut
    rw [List.flatten_cons, ← List.append_assoc] at hreq
    have hc : header ++ c <+: req := ⟨_, hreq⟩
    have hstep := receive_more h hw hne hc hq
    rw [List.map_cons, receiveAll]
    generalize receive true q fd c = res at hstep
    cases hstep with
    | @delivered q' hall hfits =>
      have hnil : cut = [] := by
        have hflat : cut.flatten = [] := by
          rwa [hall, List.append_right_eq_self] at hreq
        exact List.eq_nil_iff_forall_not_mem.mpr fun x hx =>
          hcut x hx (List.flatten_eq_nil_iff.mp hflat x hx)
      subst hnil
      rw [if_pos (hall ▸ hfits)]
      exact ⟨q', rfl⟩
    | @kept q' uc' hw' hq' =>
      rw [Fuel.ok_bind]
      have hkept := Function.update_self fd uc' pend
      have hrest := ih (hkept.symm ▸ hw') hq' hcut hreq
      split
      · rename_i hfits
        rw [if_pos hfits] at hrest
        obtain ⟨q₂, hu⟩ := hrest
        exact ⟨q₂, Fuel.bind_eq_ok.mpr ⟨_, hu, rfl⟩⟩
      · rename_i hlong
        rw [if_neg hlong] at hrest
        dsimp only
        rw [hrest]
        rfl
    | overflow hlen =>
      have hle := hc.length_le
      rw [if_neg (by omega)]
      rfl

/-- A request is delivered, however it comes, if the scan has three bytes to begin with and the
header has room for what is kept. -/
theorem handshake_delivers {q : Option Queue} (hq : Reached q) (hpop : (lpop q).1 = none)
    (hfd : (find_uncomplete q fd).1 = none) (h : Request req) (first : List UInt8)
    (cut : List (List UInt8)) (hcut : ∀ c ∈ first :: cut, c ≠ [] ∧ c.length < 2 ^ 31)
    (hreq : (first :: cut).flatten = req) :
    (∃ q', receiveAll true q ((first :: cut).map (fd, ·)) = .ok ([packOf fd req], q')) ↔
      3 ≤ first.length ∧ (req.length ≤ HEADERSIZE ∨ cut = []) := by
  obtain ⟨pend, hq, hfind⟩ := hq.empty_ring hpop
  rw [hfind] at hfd
  obtain ⟨⟨hne, hlt⟩, hcut⟩ := List.forall_mem_cons.mp hcut
  rw [List.flatten_cons] at hreq
  have hfirst : first <+: req := ⟨_, hreq⟩
  rw [List.map_cons, receiveAll]
  by_cases hthree : 3 ≤ first.length
  · rw [and_iff_right hthree]
    by_cases hall : first = req
    · -- the first chunk is the request
      have hnil : cut = [] := by
        have hflat : cut.flatten = [] := by
          rwa [hall, List.append_right_eq_self] at hreq
        exact List.eq_nil_iff_forall_not_mem.mpr fun x hx =>
          (hcut x hx).1 (List.flatten_eq_nil_iff.mp hflat x hx)
      subst hnil hall
      obtain ⟨q', hu⟩ := receive_request h hlt hfd hq
      exact iff_of_true ⟨q', Fuel.bind_eq_ok.mpr ⟨_, hu, rfl⟩⟩ (.inr rfl)
    · have hsome : cut ≠ [] := by
        rintro rfl
        exact hall (by rwa [List.flatten_nil, List.append_nil] at hreq)
      rw [or_iff_left hsome]
      have hstep := receive_first h hfirst hall hthree hlt hfd hq
      generalize receive true q fd first = res at hstep
      cases hstep with
      | delivered he => exact absurd he hall
      | @kept q' uc' hw' hq' =>
        have hkept := Function.update_self fd uc' pend
        have hrest := receiveAll_request h cut (hkept.symm ▸ hw') hq' (fun c hc => (hcut c hc).1)
          hreq
        rw [Fuel.ok_bind]
        split at hrest
        · rename_i hfits
          obtain ⟨q₂, hu⟩ := hrest
          exact iff_of_true ⟨q₂, Fuel.bind_eq_ok.mpr ⟨_, hu, rfl⟩⟩ hfits
        · rename_i hlong
          refine iff_of_false (fun hc => ?_) hlong
          obtain ⟨q₂, hu⟩ := hc
          obtain ⟨_, hu, -⟩ := Fuel.bind_eq_ok.mp hu
          cases hrest.symm.trans hu
      | overflow hlen =>
        have hle := hfirst.length_le
        refine iff_of_false (fun hc => ?_) (by omega)
        obtain ⟨q₂, hu⟩ := hc
        obtain ⟨_, hu, -⟩ := Fuel.bind_eq_ok.mp hu
        cases hu
  · refine iff_of_false (fun hc => ?_) fun hc => hthree hc.1
    obtain ⟨q', hu⟩ := hc
    obtain ⟨_, hu, -⟩ := Fuel.bind_eq_ok.mp hu
    rw [receive_short hne (Nat.not_le.mp hthree) hfd hq] at hu
    cases hu

theorem request_min : Request [71, 13, 10, 13, 10] := ⟨by decide, by decide⟩

theorem handshake_delivers_parts : ∃ q',
    receiveAll true none [(7, [71, 13, 10]), (7, [13]), (7, [10])] =
      .ok ([packOf 7 [71, 13, 10, 13, 10]], q') :=
  (handshake_delivers .empty rfl rfl request_min [71, 13, 10] [[13], [10]] (by decide) rfl).mpr
    ⟨by decide, .inl (by decide)⟩

/-- The same request from a client that sends one byte first. -/
theorem one_byte_overreads : Request [71, 13, 10, 13, 10] ∧
    [[71], [13, 10, 13, 10]].flatten = [71, 13, 10, 13, 10] ∧
    receiveAll true none [(7, [71]), (7, [13, 10, 13, 10])] = .error (some .overread) := by
  have hu : receive true none 7 [71] = .error (some .overread) :=
    receive_short (List.cons_ne_nil _ _) (by decide) rfl ⟨fun _ => rfl, rfl⟩
  refine ⟨request_min, rfl, ?_⟩
  rw [receiveAll, hu]
  rfl

end SkynetHotfix.Netpack
