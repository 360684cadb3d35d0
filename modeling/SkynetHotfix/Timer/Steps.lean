import SkynetHotfix.Timer.Overlap
import SkynetHotfix.Timer.Raise

/-!
# A tick as a run of small steps

A tick whose callbacks do not yield is a run of the small steps of `Timer.Overlap`, with numbers
without end: it starts, each callback is called, makes its calls and returns or raises, and the tick
comes to its end unless one raised (`onTimeOut_small`). So what the runs of `Timer.Run` reach, the
small steps reach (`reach_small`), and what those keep holds of these.

The small steps go on with the slot that the tick found, those of `Timer.Run` look at the timer again.
That is the same, as no callback of a delay above zero is put into the slot of this tick
(`entry_returned`).
-/

namespace SkynetHotfix.Timer

variable {F : Type}

/-- A timer on which the ticks `ticks` are under way. -/
def World.small (w : World F) (ticks : List (Overlap.Tick ℚ Nat F)) : Overlap.World ℚ Nat ℚ F :=
  ⟨w.timer, ticks, w.tags, w.log⟩

def Call.op : Call F → Overlap.Op ℚ F
  | register sec f loop now => .register sec f loop now
  | unregister idx => .unregister idx

/-- How the visit of a callback ends. -/
def Visit.last (v : Visit F) : Overlap.Op ℚ F :=
  if v.raises then .raises 0 else .returns 0 v.now

def Visit.ops (v : Visit F) : List (Overlap.Op ℚ F) :=
  .invoke 0 :: (v.calls.map Call.op ++ [v.last])

/-- The second loop: the callbacks up to the first that raises, and its end where none did. -/
def visitOps (vs : List (Visit F)) : List (Overlap.Op ℚ F) :=
  (ran vs).flatMap Visit.ops ++ if vs.any Visit.raises then [] else [.finish 0]

def Step.ops : Step F → List (Overlap.Op ℚ F)
  | call c => [c.op]
  | tick vs => .start (vs.map Visit.idx) :: visitOps vs

theorem call_small (w : World F) (ticks : List (Overlap.Tick ℚ Nat F)) (c : Call F) :
    (w.small ticks).exec c.op = (w.call c).small ticks := by
  cases c with
  | register sec f loop now =>
    simp only [Call.op, World.small, Overlap.World.exec, World.call]
    cases register w.timer sec w.tags f loop now <;> rfl
  | unregister idx => cases idx <;> rfl

theorem calls_small (cs : List (Call F)) (w : World F) (ticks : List (Overlap.Tick ℚ Nat F)) :
    (cs.map Call.op).foldl Overlap.World.exec (w.small ticks) =
      (cs.foldl World.call w).small ticks := by
  induction cs generalizing w with
  | nil => rfl
  | cons c cs ih => rw [List.map_cons, List.foldl_cons, call_small, ih, List.foldl_cons]

/-- One visit: the callback is called, makes its calls, and raises or returns. -/
theorem visit_small (w : World F) (v : Visit F) (inc : Nat) (slot : Slot ℚ F Nat)
    (todo : List Nat) {callback : Callback ℚ F Nat} (hc : slot v.idx = some callback) :
    v.ops.foldl Overlap.World.exec (w.small [⟨inc, slot, v.idx :: todo, none⟩]) =
      if v.raises then (w.invoke callback v).small []
      else (w.returned callback v).small [⟨inc, slot, todo, none⟩] := by
  have hinvoke : (w.small [⟨inc, slot, v.idx :: todo, none⟩]).exec (.invoke 0) =
      World.small { w with log := w.log ++ [.invoked callback.param v.idx w.timer.inc] }
        [⟨inc, slot, todo, some (v.idx, callback)⟩] := by
    simp [World.small, Overlap.World.exec, hc]
  rw [Visit.ops, List.foldl_cons, hinvoke, List.foldl_append, calls_small, ← World.invoke,
    List.foldl_cons, List.foldl_nil, Visit.last]
  split <;> rfl

/-- The second loop of a tick, by induction on its visits. -/
theorem visits_small (inc : Nat) (slot : Slot ℚ F Nat) : ∀ (vs : List (Visit F)) {w : World F},
    Single w none (vs.map Visit.idx) →
    (∀ i ∈ vs.map Visit.idx, slot i = entry w.timer w.timer.inc i) →
    (visitOps vs).foldl Overlap.World.exec (w.small [⟨inc, slot, vs.map Visit.idx, none⟩]) =
      if (w.visits vs).2
      then World.small { (w.visits vs).1 with timer := clearSlot (w.visits vs).1.timer } []
      else (w.visits vs).1.small []
  | [], _, _, _ => rfl
  | v :: vs, w, h, hslot => by
    have hheld : v.idx ∈ (v :: vs).map Visit.idx := List.mem_cons_self
    obtain ⟨callback, hc⟩ := Option.isSome_iff_exists.mp (h.held v.idx hheld)
    have hvisit := visit_small w v inc slot (vs.map Visit.idx) ((hslot v.idx hheld).trans hc)
    rw [visits_cons hc, visitOps, ran, List.flatMap_cons, List.append_assoc, List.foldl_append,
      List.map_cons, hvisit, List.any_cons]
    cases hr : v.raises with
    | true => rfl
    | false =>
      have hs := h.returned hc
      refine visits_small inc slot vs hs fun i hi => ?_
      rw [hslot i (List.mem_cons_of_mem _ hi), returned_inc, entry_returned (h.pos _ _ _ hc)]

/-- A tick whose callbacks do not yield is made of its small steps. -/
theorem onTimeOut_small {w : World F} {vs : List (Visit F)} (hw : Single w none [])
    (ht : Traverses w.timer vs) :
    (Step.ops (.tick vs)).foldl Overlap.World.exec (w.small []) = (w.onTimeOut vs).1.small [] := by
  rw [Step.ops, List.foldl_cons]
  cases hslot : (due w.timer).callbacks (due w.timer).inc with
  | none =>
    obtain rfl := ht.eq_nil hslot
    have hstart : (w.small []).exec (.start []) = World.small { w with timer := due w.timer } [] := by
      have hslot' : (due w.timer).callbacks (Numbers.key ℚ (due w.timer).inc) = none := hslot
      simp only [World.small, Overlap.World.exec, hslot']
    rw [onTimeOut_none hslot, List.map_nil, hstart]
    rfl
  | some slot =>
    have hstart : (w.small []).exec (.start (vs.map Visit.idx)) =
        World.small { w with timer := due w.timer }
          [⟨(due w.timer).inc, slot, vs.map Visit.idx, none⟩] := by
      have hslot' : (due w.timer).callbacks (Numbers.key ℚ (due w.timer).inc) = some slot := hslot
      simp only [World.small, Overlap.World.exec, hslot', List.nil_append]
    rw [onTimeOut_some hslot, hstart, visits_small _ slot vs (hw.start ht.1 ht.2)]
    · split <;> rename_i hv <;> split <;> rename_i hv' <;> simp_all
    · intro i _
      rw [entry, hslot, Option.bind_some]

/-- Legal steps all but for the start of a tick. -/
theorem allowed_visitOps (vs : List (Visit F)) (w : Overlap.World ℚ Nat ℚ F) :
    Machine.Allowed Overlap.World.exec Overlap.World.Legal w (visitOps vs) := by
  have hlegal : ∀ (ops : List (Overlap.Op ℚ F)), (∀ order, .start order ∉ ops) →
      ∀ w, Machine.Allowed Overlap.World.exec Overlap.World.Legal w ops := by
    intro ops
    induction ops with
    | nil => exact fun _ _ => trivial
    | cons op ops ih =>
      intro hops w
      refine ⟨?_, ih (fun order hm => hops order (List.mem_cons_of_mem _ hm)) _⟩
      cases op with
      | start order => exact absurd List.mem_cons_self (hops order)
      | _ => trivial
  refine hlegal _ (fun order hm => ?_) w
  simp only [visitOps, List.mem_append, List.mem_flatMap, Visit.ops, List.mem_cons, List.mem_map,
    reduceCtorEq, false_or, List.not_mem_nil, or_false] at hm
  rcases hm with ⟨v, -, ⟨c, -, hc⟩ | hlast⟩ | hfinish
  · cases c <;> cases hc
  · rw [Visit.last] at hlast
    split at hlast <;> cases hlast
  · split at hfinish <;> simp at hfinish

/-- What the runs of ticks that do not yield reach, the small steps reach. -/
theorem reach_small {interval : Option Nat} {w : World F}
    (h : Machine.Reach World.exec Legal (.new interval) w) :
    Machine.Reach Overlap.World.exec Overlap.World.Legal (.new interval) (w.small []) := by
  induction h with
  | init => exact .init
  | @step w s hw hs ih =>
    cases s with
    | call c =>
      rw [World.exec, ← call_small]
      refine .step _ ih ?_
      cases c <;> trivial
    | tick vs =>
      have hw := single_kept.reach hw (.new interval)
      rw [World.exec, ← onTimeOut_small hw hs]
      exact ih.run _ ⟨hs, allowed_visitOps vs _⟩

end SkynetHotfix.Timer
