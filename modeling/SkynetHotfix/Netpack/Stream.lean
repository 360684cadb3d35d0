import SkynetHotfix.Netpack.Filter
import SkynetHotfix.Netpack.Reached

/-!
# Connections

What the gate does with a chunk (`receive`): the packet that `filter` returns is
delivered, or after `more` what is in the queue is popped. However the chunks of
several connections come one after the other, each connection is delivered what
the `framer` makes of its own stream (`receiveAll_spec`): the queue keeps the
bytes of the others (`Keeps`).
-/

namespace SkynetHotfix.Netpack

open Function (update)

/-- Pops a queue with at most `n` packets until there is none. -/
def popAll : Nat → Option Queue → List Pack × Option Queue
  | 0, q => ([], q)
  | n + 1, q =>
    match lpop q with
    | (none, q) => ([], q)
    | (some np, q) => ((np :: (popAll n q).1), (popAll n q).2)

/-- The slots of a queue. -/
def slots (q : Option Queue) : Nat := (q.map Queue.cap).getD 0

/-- The packets that are delivered for a chunk. -/
def receive (wsocket_handeshake : Bool) (q : Option Queue) (fd : Int) (chunk : List UInt8) :
    Result (List Pack × Option Queue) := do
  let (ret, q) ← lfilter q wsocket_handeshake (.data fd chunk)
  match ret with
  | .data fd buffer size => .ok ([⟨fd, size, buffer⟩], q)
  | .more => .ok (popAll (slots q) q)
  | _ => .ok ([], q)

/-- The packets that are delivered for chunks of any connections. -/
def receiveAll (wsocket_handeshake : Bool) : Option Queue → List (Int × List UInt8) →
    Result (List Pack × Option Queue)
  | q, [] => .ok ([], q)
  | q, (fd, chunk) :: events => do
    let (out, q) ← receive wsocket_handeshake q fd chunk
    let (outs, q) ← receiveAll wsocket_handeshake q events
    .ok (out ++ outs, q)

/-- The bytes of a connection. -/
def streamOf (fd : Int) (events : List (Int × List UInt8)) : List UInt8 :=
  events.flatMap fun e => if e.1 = fd then e.2 else []

/-- The packets of a connection. -/
def deliveredTo (fd : Int) (out : List Pack) : List Pack := out.filter fun np => np.id = fd

variable {fd : Int} {fut : List UInt8} {q : Option Queue} {pend : Int → Option Uncomplete}
  {ring : List Pack}

theorem popAll_spec (n : Nat) : ∀ {q : Option Queue} {ring : List Pack}, Holds q pend ring →
    ring.length ≤ n → ∃ q', popAll n q = (ring, q') ∧ Holds q' pend [] := by
  induction n with
  | zero =>
    intro q ring h hlen
    rw [List.length_eq_zero_iff.mp (Nat.le_zero.mp hlen)] at h ⊢
    exact ⟨q, rfl, h⟩
  | succ n ih =>
    intro q ring h hlen
    cases ring with
    | nil => exact ⟨q, by rw [popAll, h.lpop_nil], h⟩
    | cons np ring =>
      obtain ⟨q₁, hpop, h₁⟩ := h.lpop_cons
      obtain ⟨q₂, hu, h₂⟩ := ih h₁ (Nat.le_of_succ_le_succ hlen)
      exact ⟨q₂, by rw [popAll, hpop]; dsimp only; rw [hu], h₂⟩

theorem length_le_slots (h : Holds q pend ring) : ring.length ≤ slots q := by
  cases q with
  | none =>
    rw [h.2]
    exact Nat.zero_le _
  | some q =>
    obtain ⟨hwf, -, rfl⟩ := h
    rw [Queue.contents, List.length_map, List.length_range]
    exact Nat.le_of_lt (Queue.count_lt hwf)

/-- A chunk delivers the packets that are complete with it. -/
theorem receive_spec {p c rest : List UInt8} {xs : List (List UInt8)} (hne : c ≠ [])
    (hp : Pending fd (pend fd) p) (hclean : framer.Along Clean (p ++ c ++ fut))
    (hd : framer.Drains (p ++ c) xs rest) (hq : Holds q pend []) :
    ∃ q' uc', receive false q fd c = .ok (xs.map (packOf fd), q') ∧ Pending fd uc' rest ∧
      Holds q' (update pend fd uc') [] := by
  obtain ⟨ret, q₁, uc', ring', hu, hgives, hp', hq₁⟩ := filter_data_spec hne hp hclean hd hq
  have hu : lfilter q false (.data fd c) = .ok (ret, q₁) := hu
  cases hgives with
  | nothing => exact ⟨q₁, uc', Fuel.bind_eq_ok.mpr ⟨_, hu, rfl⟩, hp', hq₁⟩
  | data b => exact ⟨q₁, uc', Fuel.bind_eq_ok.mpr ⟨_, hu, rfl⟩, hp', hq₁⟩
  | more =>
    obtain ⟨q₂, hpop, hq₂⟩ := popAll_spec _ hq₁ (length_le_slots hq₁)
    exact ⟨q₂, uc', Fuel.bind_eq_ok.mpr ⟨_, hu, congrArg Except.ok hpop⟩, hp', hq₂⟩

/-! ## Several connections -/

theorem streamOf_cons_self (c : List UInt8) (events : List (Int × List UInt8)) :
    streamOf fd ((fd, c) :: events) = c ++ streamOf fd events := by
  rw [streamOf, List.flatMap_cons, if_pos rfl]
  rfl

theorem streamOf_cons_of_ne {fd' : Int} (h : fd' ≠ fd) (c : List UInt8)
    (events : List (Int × List UInt8)) :
    streamOf fd ((fd', c) :: events) = streamOf fd events := by
  rw [streamOf, List.flatMap_cons, if_neg h]
  rfl

theorem deliveredTo_append (a b : List Pack) :
    deliveredTo fd (a ++ b) = deliveredTo fd a ++ deliveredTo fd b :=
  List.filter_append ..

theorem deliveredTo_packs (xs : List (List UInt8)) :
    deliveredTo fd (xs.map (packOf fd)) = xs.map (packOf fd) := by
  refine List.filter_eq_self.mpr fun np hnp => ?_
  obtain ⟨x, -, rfl⟩ := List.mem_map.mp hnp
  exact decide_eq_true rfl

theorem deliveredTo_packs_of_ne {fd' : Int} (h : fd' ≠ fd) (xs : List (List UInt8)) :
    deliveredTo fd (xs.map (packOf fd')) = [] := by
  refine List.filter_eq_nil_iff.mpr fun np hnp => ?_
  obtain ⟨x, -, rfl⟩ := List.mem_map.mp hnp
  exact fun he => h (of_decide_eq_true he)

/-- What has been received of the connections in `S` and not delivered. -/
def Keeps (S : Int → Prop) (pend : Int → Option Uncomplete) (left : Int → List UInt8) : Prop :=
  ∀ fd, S fd → Pending fd (pend fd) (left fd)

theorem Keeps.update {S : Int → Prop} {left : Int → List UInt8} {uc : Option Uncomplete}
    {rest : List UInt8} (h : Keeps S pend left) (hp : Pending fd uc rest) :
    Keeps S (update pend fd uc) (update left fd rest) := by
  intro fd' hs
  by_cases hfd : fd' = fd
  · subst hfd
    rw [Function.update_self, Function.update_self]
    exact hp
  · rw [Function.update_of_ne hfd, Function.update_of_ne hfd]
    exact h fd' hs

/-- Chunks of several connections, in any order. -/
theorem receiveAll_spec {S : Int → Prop} (events : List (Int × List UInt8)) :
    ∀ {q : Option Queue} {pend : Int → Option Uncomplete} {left : Int → List UInt8},
    (∀ e ∈ events, S e.1 ∧ e.2 ≠ []) → Keeps S pend left →
    (∀ fd, S fd → framer.Along Clean (left fd ++ streamOf fd events)) → Holds q pend [] →
    ∃ out q' pend', receiveAll false q events = .ok (out, q') ∧ Holds q' pend' [] ∧
      (∀ fd, ¬ S fd → deliveredTo fd out = []) ∧
      ∀ fd, S fd → ∃ xs rest, framer.Drains (left fd ++ streamOf fd events) xs rest ∧
        deliveredTo fd out = xs.map (packOf fd) := by
  induction events with
  | nil =>
    intro q pend left _ hk _ hq
    refine ⟨[], q, pend, rfl, hq, fun _ _ => rfl, fun fd hs => ⟨[], left fd, ?_, rfl⟩⟩
    rw [streamOf, List.flatMap_nil, List.append_nil]
    exact .stop (step_pending (hk fd hs))
  | cons e events ih =>
    obtain ⟨fd₀, c⟩ := e
    intro q pend left hevents hk hclean hq
    obtain ⟨⟨hs₀, hne⟩, hevents⟩ := List.forall_mem_cons.mp hevents
    obtain ⟨xs, rest, hd⟩ := framer.exists_drains (left fd₀ ++ c)
    have hclean₀ := hclean fd₀ hs₀
    rw [streamOf_cons_self, ← List.append_assoc] at hclean₀
    obtain ⟨q₁, uc, hu₁, hp, hq₁⟩ := receive_spec hne (hk fd₀ hs₀) hclean₀ hd hq
    have hleft : ∀ fd, fd ≠ fd₀ → update left fd₀ rest fd ++ streamOf fd events =
        left fd ++ streamOf fd ((fd₀, c) :: events) := by
      intro fd hfd
      rw [Function.update_of_ne hfd, streamOf_cons_of_ne hfd.symm]
    obtain ⟨out, q', pend', hu, hq', hother, hout⟩ := ih hevents (hk.update hp)
      (fun fd hs => by
        by_cases hfd : fd = fd₀
        · subst hfd
          rw [Function.update_self]
          exact hclean₀.drained hd
        · rw [hleft fd hfd]
          exact hclean fd hs) hq₁
    refine ⟨_, q', pend', Fuel.bind_eq_ok.mpr ⟨_, hu₁, Fuel.bind_eq_ok.mpr ⟨_, hu, rfl⟩⟩, hq',
      fun fd hs => ?_, fun fd hs => ?_⟩
    · have hfd : fd₀ ≠ fd := fun he => hs (he ▸ hs₀)
      rw [deliveredTo_append, deliveredTo_packs_of_ne hfd, hother fd hs]
      rfl
    · obtain ⟨ys, rest', hd', hys⟩ := hout fd hs
      by_cases hfd : fd = fd₀
      · subst hfd
        rw [Function.update_self] at hd'
        refine ⟨xs ++ ys, rest', ?_, ?_⟩
        · rw [streamOf_cons_self, ← List.append_assoc]
          exact hd.append hd'
        · rw [deliveredTo_append, deliveredTo_packs, hys, List.map_append]
      · refine ⟨ys, rest', ?_, ?_⟩
        · rw [← hleft fd hfd]
          exact hd'
        · rw [deliveredTo_append, deliveredTo_packs_of_ne (Ne.symm hfd), hys]
          rfl

end SkynetHotfix.Netpack
