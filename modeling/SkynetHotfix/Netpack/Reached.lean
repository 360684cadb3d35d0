import SkynetHotfix.Netpack.Queue

/-!
# The queues that calls leave

Whatever `filter` is given, a queue that it returns is one (`Reached.holds`):
the lists of the hash table have an fd once, and the ring has a slot that is
free. A call takes the packet of its fd out of the table, and puts one back at
most once.
-/

namespace SkynetHotfix.Netpack

open Function (update)

/-- What `filter` and `pop` can make of no queue. -/
inductive Reached : Option Queue → Prop
  | empty : Reached none
  | filter {q q' : Option Queue} {wsocket_handeshake : Bool} {msg : SocketMessage} {ret : Ret} :
      Reached q → lfilter q wsocket_handeshake msg = .ok (ret, q') → Reached q'
  | pop {q q' : Option Queue} {np : Option Pack} : Reached q → lpop q = (np, q') → Reached q'

/-- A queue that has nothing kept for `fd`. -/
def Free (fd : Int) (q : Option Queue) : Prop := ∃ pend ring, Holds q pend ring ∧ pend fd = none

variable {fd size : Int} {q q' : Option Queue} {uc : Uncomplete} {r : ReadSize} {hs clone : Bool}
  {buffer : List UInt8} {ret : Ret}

theorem Free.holds (h : Free fd q) : ∃ pend ring, Holds q pend ring := by
  obtain ⟨pend, ring, h, -⟩ := h
  exact ⟨pend, ring, h⟩

theorem Free.push_data (h : Free fd q) (hu : push_data q fd buffer size clone = .ok q') :
    Free fd q' := by
  obtain ⟨pend, ring, h, hfd⟩ := h
  exact ⟨pend, _, h.pushed hu, hfd⟩

theorem Free.save_uncomplete (h : Free fd q) (uc : Uncomplete) :
    ∃ pend ring, Holds (save_uncomplete q fd uc) pend ring := by
  obtain ⟨pend, ring, h, hfd⟩ := h
  exact ⟨_, _, h.save_uncomplete hfd uc⟩

theorem Free.saveHeader (h : Free fd q) (hu : saveHeader q fd buffer = .ok q') :
    ∃ pend ring, Holds q' pend ring := by
  rw [Netpack.saveHeader] at hu
  split at hu
  · cases hu
  · cases hu
    exact h.save_uncomplete _

theorem Free.savePayload (h : Free fd q) (hu : savePayload q fd r buffer = .ok q') :
    ∃ pend ring, Holds q' pend ring := by
  obtain ⟨_, -, hu⟩ := Fuel.bind_eq_ok.mp hu
  cases hu
  exact h.save_uncomplete _

theorem Free.push_more (h : Free fd q) {fuel : Nat} (hu : push_more fd hs fuel buffer q = .ok q') :
    ∃ pend ring, Holds q' pend ring := by
  refine Fuel.run_post (P := fun _ q => Free fd q) (Q := fun _ _ q' => ∃ pend ring,
    Holds q' pend ring) (fun rec ih buffer q q' h hu => ?_) fuel buffer q q' h hu
  obtain ⟨⟨r, buffer⟩, -, hu⟩ := Fuel.bind_eq_ok.mp hu
  dsimp only at hu
  split at hu
  · exact h.saveHeader hu
  · split at hu
    · exact h.savePayload hu
    · obtain ⟨q₁, hpush, hu⟩ := Fuel.bind_eq_ok.mp hu
      have h₁ := h.push_data hpush
      split at hu
      · exact ih _ _ _ h₁ hu
      · cases hu
        exact h₁.holds

theorem Free.fillPayload (h : Free fd q) (hu : fillPayload fd hs uc buffer q = .ok (ret, q')) :
    ∃ pend ring, Holds q' pend ring := by
  rw [Netpack.fillPayload] at hu
  dsimp only at hu
  split at hu
  · cases hu
    exact h.save_uncomplete _
  · split at hu
    · cases hu
      exact h.holds
    · obtain ⟨q₁, hpush, hu⟩ := Fuel.bind_eq_ok.mp hu
      obtain ⟨q₂, hmore, hu⟩ := Fuel.bind_eq_ok.mp hu
      cases hu
      exact (h.push_data hpush).push_more hmore

theorem find_uncomplete_free {pend : Int → Option Uncomplete} {ring : List Pack}
    (h : Holds q pend ring) (fd : Int) : Free fd (find_uncomplete q fd).2 := by
  obtain ⟨q₁, hfind, h₁⟩ := h.find_uncomplete fd
  rw [hfind]
  exact ⟨_, _, h₁, Function.update_self ..⟩

/-- A chunk, whatever is in it. -/
theorem filter_data_holds {pend : Int → Option Uncomplete} {ring : List Pack}
    (h : Holds q pend ring) (hu : filter_data_ fd buffer hs q = .ok (ret, q')) :
    ∃ pend ring, Holds q' pend ring := by
  have hfree := find_uncomplete_free h fd
  rw [filter_data_] at hu
  generalize find_uncomplete q fd = found at hu hfree
  obtain ⟨kept, q₁⟩ := found
  cases kept with
  | some uc =>
    dsimp only at hu hfree
    split at hu
    · obtain ⟨⟨r, header, rest⟩, -, hu⟩ := Fuel.bind_eq_ok.mp hu
      dsimp only at hu
      split at hu
      · cases hu
        exact hfree.save_uncomplete _
      · obtain ⟨_, -, hu⟩ := Fuel.bind_eq_ok.mp hu
        exact hfree.fillPayload hu
    · exact hfree.fillPayload hu
  | none =>
    obtain ⟨⟨r, rest⟩, -, hu⟩ := Fuel.bind_eq_ok.mp hu
    dsimp only at hu
    split at hu
    · obtain ⟨q₂, hsave, hu⟩ := Fuel.bind_eq_ok.mp hu
      cases hu
      exact hfree.saveHeader hsave
    · split at hu
      · obtain ⟨q₂, hsave, hu⟩ := Fuel.bind_eq_ok.mp hu
        cases hu
        exact hfree.savePayload hsave
      · split at hu
        · cases hu
          exact hfree.holds
        · obtain ⟨q₂, hpush, hu⟩ := Fuel.bind_eq_ok.mp hu
          obtain ⟨q₃, hmore, hu⟩ := Fuel.bind_eq_ok.mp hu
          cases hu
          exact (hfree.push_data hpush).push_more hmore

/-- What any calls leave is a queue. -/
theorem Reached.holds (h : Reached q) : ∃ pend ring, Holds q pend ring := by
  induction h with
  | empty => exact ⟨fun _ => none, [], fun _ => rfl, rfl⟩
  | @filter q q' hs msg ret _ hu ih =>
    obtain ⟨pend, ring, ih⟩ := ih
    cases msg with
    | data id buffer => exact filter_data_holds ih hu
    | connect id =>
      cases hu
      exact ⟨_, _, ih⟩
    | close id =>
      cases hu
      exact (find_uncomplete_free ih id).holds
    | accept id ud msg =>
      cases hu
      exact ⟨_, _, ih⟩
    | error id msg =>
      cases hu
      exact (find_uncomplete_free ih id).holds
    | warning id ud =>
      cases hu
      exact ⟨_, _, ih⟩
  | @pop q q' np _ hu ih =>
    obtain ⟨pend, ring, ih⟩ := ih
    cases ring with
    | nil =>
      rw [ih.lpop_nil] at hu
      cases hu
      exact ⟨_, _, ih⟩
    | cons p ring =>
      obtain ⟨q₁, hpop, h₁⟩ := ih.lpop_cons
      rw [hpop] at hu
      cases hu
      exact ⟨_, _, h₁⟩

/-- A queue with nothing to pop has nothing in its ring. -/
theorem Reached.empty_ring (h : Reached q) (hpop : (lpop q).1 = none) :
    ∃ pend, Holds q pend [] ∧ ∀ fd, (find_uncomplete q fd).1 = pend fd := by
  obtain ⟨pend, ring, h⟩ := h.holds
  have hfind : ∀ fd, (find_uncomplete q fd).1 = pend fd := by
    intro fd
    obtain ⟨q₁, hfind, -⟩ := h.find_uncomplete fd
    rw [hfind]
  cases ring with
  | nil => exact ⟨pend, h, hfind⟩
  | cons p ring =>
    obtain ⟨q₁, hu, -⟩ := h.lpop_cons
    rw [hu] at hpop
    cases hpop

end SkynetHotfix.Netpack
