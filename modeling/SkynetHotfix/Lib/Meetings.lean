import Mathlib.Data.List.Nodup

/-!
# What a walk meets

A depth-first walk over a graph meets a node along each edge it goes. A node
that is new is expanded, under a path by which it is known from then on; one
that is known is only referred to. The walk carries the nodes it knows, with
their paths, and what it meets is a list in the order of the walk:

* `Legal.nodup`: no node is expanded twice;
* `Legal.first`: a node is referred to by the path of its expansion, which
  came before;
* `new_lt`: each expansion leaves fewer nodes that are new.
-/

namespace Meetings

variable {α β : Type*}

/-- What a walk does with the node it meets. -/
inductive Meeting (α β : Type*)
  | expanded (a : α) (path : β)
  | reference (a : α) (path : β)

open Meeting

/-- The nodes that are known, after what was met. -/
def after : List (α × β) → List (Meeting α β) → List (α × β)
  | st, [] => st
  | st, expanded a p :: l => after ((a, p) :: st) l
  | st, reference _ _ :: l => after st l

/-- What is expanded is new, and a reference gives the path that is known. -/
def Legal : List (α × β) → List (Meeting α β) → Prop
  | _, [] => True
  | st, expanded a p :: l => a ∉ st.map Prod.fst ∧ Legal ((a, p) :: st) l
  | st, reference a p :: l => (a, p) ∈ st ∧ Legal st l

/-- The nodes that are expanded. -/
def nodes : List (Meeting α β) → List α
  | [] => []
  | expanded a _ :: l => a :: nodes l
  | reference _ _ :: l => nodes l

theorem after_append (l l' : List (Meeting α β)) (st : List (α × β)) :
    after st (l ++ l') = after (after st l) l' := by
  induction l generalizing st with
  | nil => rfl
  | cons e l ih => cases e <;> exact ih _

theorem legal_append (l l' : List (Meeting α β)) (st : List (α × β)) :
    Legal st (l ++ l') ↔ Legal st l ∧ Legal (after st l) l' := by
  induction l generalizing st with
  | nil => simp [Legal, after]
  | cons e l ih => cases e <;> simp [Legal, after, ih, and_assoc]

/-- What is known afterwards was known, or has been expanded. -/
theorem mem_after {a : α} {p : β} (l : List (Meeting α β)) (st : List (α × β)) :
    (a, p) ∈ after st l ↔ (a, p) ∈ st ∨ expanded a p ∈ l := by
  induction l generalizing st with
  | nil => simp [after]
  | cons e l ih =>
    cases e with
    | expanded b q =>
      rw [after, ih, List.mem_cons, List.mem_cons, expanded.injEq, Prod.mk.injEq]
      tauto
    | reference b q =>
      rw [after, ih, List.mem_cons]
      simp

section

variable [BEq α] [LawfulBEq α] {st : List (α × β)} {a : α} {p : β}

theorem mem_of_lookup (h : st.lookup a = some p) : (a, p) ∈ st := by
  obtain ⟨l₁, l₂, rfl, -⟩ := List.lookup_eq_some_iff.mp h
  simp

theorem new_of_lookup (h : st.lookup a = none) : a ∉ st.map Prod.fst := by
  intro hm
  obtain ⟨e, he, rfl⟩ := List.mem_map.mp hm
  simpa using List.lookup_eq_none_iff.mp h e he

end

theorem mem_nodes {a : α} {l : List (Meeting α β)} : a ∈ nodes l ↔ ∃ p, expanded a p ∈ l := by
  induction l with
  | nil => simp [nodes]
  | cons e l ih =>
    cases e with
    | expanded b q =>
      rw [nodes, List.mem_cons, ih]
      simp [exists_or]
    | reference b q => simp [nodes, ih]

/-- No node is expanded twice, and none that was known. -/
theorem Legal.nodup {l : List (Meeting α β)} {st : List (α × β)} (hl : Legal st l) :
    (nodes l).Nodup ∧ ∀ a ∈ nodes l, a ∉ st.map Prod.fst := by
  induction l generalizing st with
  | nil => simp [nodes]
  | cons e l ih =>
    cases e with
    | expanded b q =>
      obtain ⟨hnew, hl⟩ := hl
      obtain ⟨hnd, hdisj⟩ := ih hl
      refine ⟨List.nodup_cons.mpr ⟨fun hb => hdisj b hb (by simp), hnd⟩, fun a ha => ?_⟩
      rcases List.mem_cons.mp ha with rfl | ha
      · exact hnew
      · exact fun hm => hdisj a ha (List.mem_cons_of_mem _ hm)
    | reference b q => exact ih hl.2

/-- A reference is to what was known, or has been expanded before, by the same path. -/
theorem Legal.first {l pre post : List (Meeting α β)} {st : List (α × β)} {a : α} {p : β}
    (hl : Legal st l) (h : l = pre ++ reference a p :: post) :
    (a, p) ∈ st ∨ expanded a p ∈ pre := by
  rw [h, legal_append] at hl
  exact (mem_after pre st).mp hl.2.1

section

variable [DecidableEq α]

/-- How many of the nodes `us` are new. -/
def new (us : List α) (st : List (α × β)) : Nat :=
  us.countP fun a => decide (a ∉ st.map Prod.fst)

theorem new_mono (us : List α) {st st' : List (α × β)} (h : ∀ e ∈ st, e ∈ st') :
    new us st' ≤ new us st := by
  refine List.countP_mono_left fun a _ ha => ?_
  rw [decide_eq_true_eq] at ha ⊢
  intro hm
  obtain ⟨e, he, rfl⟩ := List.mem_map.mp hm
  exact ha (List.mem_map_of_mem (h e he))

/-- What is met leaves no more nodes new than there were. -/
theorem new_after_le (us : List α) (st : List (α × β)) (l : List (Meeting α β)) :
    new us (after st l) ≤ new us st :=
  new_mono us fun e he => (mem_after (a := e.1) (p := e.2) l st).mpr (.inl he)

/-- A node that is expanded was one of those that were new. -/
theorem new_lt {us : List α} {st : List (α × β)} {a : α} (p : β) (ha : a ∈ us)
    (hnew : a ∉ st.map Prod.fst) : new us ((a, p) :: st) < new us st := by
  obtain ⟨l₁, l₂, rfl⟩ := List.append_of_mem ha
  have hl₁ := new_mono l₁ fun e (he : e ∈ st) => List.mem_cons_of_mem (a, p) he
  have hl₂ := new_mono l₂ fun e (he : e ∈ st) => List.mem_cons_of_mem (a, p) he
  simp only [new, List.countP_append, List.countP_cons] at hl₁ hl₂ ⊢
  rw [if_neg (by simp), if_pos (by simpa using hnew)]
  omega

theorem new_le (us : List α) (st : List (α × β)) : new us st ≤ us.length :=
  List.countP_le_length

end

end Meetings
