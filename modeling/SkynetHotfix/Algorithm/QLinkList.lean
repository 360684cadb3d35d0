import Mathlib.Logic.Function.Basic
import SkynetHotfix.Lib.Fuel
import SkynetHotfix.Lib.Linked

/-!
# The linked list

`common/algorithm/QLinkeList.lua`. The nodes are linked both ways between the
sentinels `headNode` and `tailNode`. A list `Holds` a sequence of nodes with
their values, every call keeps that (`Holds.exec`), and from
it one sees what the walks in both directions and `find` give (`Holds.shows`). So after every
sequence of calls the list shows what the calls make of an empty sequence (`run_shows`).

`==` is any relation on values; what `pairs` meets first in `remove` is left open.
-/

namespace SkynetHotfix.Algorithm

open Function (update)
open Links (Linked walk)

variable {α : Type} {value v : α} {n p q fuel : Nat}

/-- `some ()` stands for an error, `none` for a lack of fuel. -/
abbrev Result := Fuel.Result Unit

/-- The fields of a node. -/
structure Node (α : Type) where
  head : Option Nat
  tail : Option Nat
  value : Option α

/-- The object, and the nodes that have been made: `size` of them. -/
structure QLinkList (α : Type) where
  node : Nat → Node α
  size : Nat
  headNode : Nat
  tailNode : Nat

/-- A node whose fields are looked at. -/
def deref : Option Nat → Result Nat
  | some node => .ok node
  | none => .error (some ())

namespace QLinkList

/-- `QLinkList:ctor` -/
def new : QLinkList α where
  node
    | 0 => ⟨none, some 1, none⟩
    | 1 => ⟨some 0, none, none⟩
    | _ => ⟨none, none, none⟩
  size := 2
  headNode := 0
  tailNode := 1

/-- `node.head = head` -/
def setHead (s : QLinkList α) (node : Nat) (head : Option Nat) : QLinkList α :=
  { s with node := update s.node node { s.node node with head } }

/-- `node.tail = tail` -/
def setTail (s : QLinkList α) (node : Nat) (tail : Option Nat) : QLinkList α :=
  { s with node := update s.node node { s.node node with tail } }

/-- The new node of `add`, its value assigned. -/
def alloc (s : QLinkList α) (value : α) : QLinkList α :=
  { s with node := update s.node s.size ⟨none, none, some value⟩, size := s.size + 1 }

/-- `QLinkList:add` -/
def add (s : QLinkList α) (value : α) (posNode : Option Nat) : Result (QLinkList α) :=
  let node := s.size
  let s := s.alloc value
  match posNode with
  | some posNode => do
    let s := s.setHead node (some posNode)
    let s := s.setTail node (s.node posNode).tail
    let next ← deref (s.node posNode).tail
    let s := s.setHead next (some node)
    .ok (s.setTail posNode (some node))
  | none => do
    let tail ← deref (s.node s.headNode).tail
    let s := s.setHead tail (some node)
    let s := s.setHead node (some s.headNode)
    let s := s.setTail node (some tail)
    .ok (s.setTail s.headNode (some node))

/-- The loop of `find`. -/
def findLoop [BEq α] (s : QLinkList α) (value : α) :
    Nat → Option Nat → List Nat → Result (List Nat)
  | 0, _, _ => .error none
  | _ + 1, none, tbNode => .ok tbNode
  | fuel + 1, some node, tbNode =>
    s.findLoop value fuel (s.node node).tail
      (if (s.node node).value == some value then tbNode ++ [node] else tbNode)

/-- `QLinkList:find` -/
def find [BEq α] (s : QLinkList α) (fuel : Nat) (value : α) : Result (List Nat) :=
  s.findLoop value fuel (s.node s.headNode).tail []

/-- A turn of the loop of `remove`. -/
def unlink (s : QLinkList α) (node : Nat) : Result (QLinkList α) := do
  let head ← deref (s.node node).head
  let s := s.setTail head (s.node node).tail
  let tail ← deref (s.node node).tail
  .ok (s.setHead tail (s.node node).head)

/-- `QLinkList:remove`; `order` is the order of `pairs`. -/
def remove [BEq α] (s : QLinkList α) (fuel : Nat) (value : α) (order : List Nat → List Nat) :
    Result (QLinkList α) := do
  let tbNode ← s.find fuel value
  (order tbNode).foldlM unlink s

end QLinkList

/-! ## Calls -/

/-- A call of a method that changes the list. -/
inductive QLinkList.Op (α : Type)
  | add (value : α)
  | addAfter (value : α) (posNode : Nat)
  | remove (value : α) (order : List Nat → List Nat) (perm : ∀ ns, (order ns).Perm ns)

/-- What a list is to hold: its nodes with their values, and how many nodes have been made. -/
structure Sequence (α : Type) where
  items : List (Nat × α)
  size : Nat

namespace Sequence

/-- An item behind the one with the node `p`. -/
def insertAfter (p : Nat) (item : Nat × α) : List (Nat × α) → List (Nat × α)
  | [] => []
  | e :: l => if e.1 = p then e :: item :: l else e :: insertAfter p item l

/-- What a call makes of a sequence. -/
def exec [BEq α] (l : Sequence α) : QLinkList.Op α → Sequence α
  | .add value => ⟨(l.size, value) :: l.items, l.size + 1⟩
  | .addAfter value posNode => ⟨insertAfter posNode (l.size, value) l.items, l.size + 1⟩
  | .remove value _ _ => ⟨l.items.filter fun e => !e.2 == value, l.size⟩

/-- The node that a call is given is in the list. -/
def Allows (l : Sequence α) : QLinkList.Op α → Prop
  | .addAfter _ posNode => posNode ∈ l.items.map Prod.fst
  | _ => True

/-- All of the calls are given nodes that are in the list then. -/
def AllowsAll [BEq α] (l : Sequence α) : List (QLinkList.Op α) → Prop
  | [] => True
  | op :: ops => l.Allows op ∧ (l.exec op).AllowsAll ops

/-- The sequence of a new list. -/
def empty : Sequence α := ⟨[], 2⟩

theorem insertAfter_eq {l : List (Nat × α)} (item : Nat × α) (h : p ∈ l.map Prod.fst) :
    ∃ l₁ v l₂, l = l₁ ++ (p, v) :: l₂ ∧ insertAfter p item l = l₁ ++ (p, v) :: item :: l₂ := by
  induction l with
  | nil => cases h
  | cons e l ih =>
    by_cases he : e.1 = p
    · subst he
      exact ⟨[], e.2, l, rfl, if_pos rfl⟩
    · obtain ⟨l₁, v, l₂, rfl, hins⟩ := ih ((List.mem_cons.mp h).resolve_left (Ne.symm he))
      exact ⟨e :: l₁, v, l₂, rfl, by rw [insertAfter, if_neg he, hins]; rfl⟩

end Sequence

namespace QLinkList

variable {s s' : QLinkList α}

/-- A call, given enough fuel. -/
def exec [BEq α] (fuel : Nat) (s : QLinkList α) : Op α → Result (QLinkList α)
  | .add value => s.add value none
  | .addAfter value posNode => s.add value (some posNode)
  | .remove value order _ => s.remove fuel value order

/-- All the calls. -/
def run [BEq α] (fuel : Nat) (s : QLinkList α) (ops : List (Op α)) : Result (QLinkList α) :=
  ops.foldlM (exec fuel) s

/-- From sentinel to sentinel. -/
def path (s : QLinkList α) (ns : List Nat) : List Nat := s.headNode :: (ns ++ [s.tailNode])

/-- The list holds the items: they are linked between the sentinels. -/
structure Holds (s : QLinkList α) (items : List (Nat × α)) : Prop where
  linked : Linked (fun n => (s.node n).tail) (fun n => (s.node n).head)
    (s.path (items.map Prod.fst))
  nodup : (s.path (items.map Prod.fst)).Nodup
  lt_size : ∀ n ∈ s.path (items.map Prod.fst), n < s.size
  headNode : (s.node s.headNode).head = none ∧ (s.node s.headNode).value = none
  tailNode : (s.node s.tailNode).tail = none ∧ (s.node s.tailNode).value = none
  values : ∀ e ∈ items, (s.node e.1).value = some e.2

theorem holds_new : (new : QLinkList α).Holds [] where
  linked := .cons_cons ⟨rfl, rfl⟩ (.singleton _)
  nodup := show [0, 1].Nodup by decide
  lt_size := show ∀ n ∈ [0, 1], n < 2 by decide
  headNode := ⟨rfl, rfl⟩
  tailNode := ⟨rfl, rfl⟩
  values := by simp

/-! ## What assignments leave -/

section

variable (s : QLinkList α) (n a : Nat) (m : Option Nat)

@[simp] theorem head_setHead :
    ((s.setHead n m).node a).head = if a = n then m else (s.node a).head := by
  by_cases h : a = n
  · subst h
    simp [setHead]
  · simp [setHead, h]

@[simp] theorem tail_setHead : ((s.setHead n m).node a).tail = (s.node a).tail := by
  by_cases h : a = n
  · subst h
    simp [setHead]
  · simp [setHead, h]

@[simp] theorem value_setHead : ((s.setHead n m).node a).value = (s.node a).value := by
  by_cases h : a = n
  · subst h
    simp [setHead]
  · simp [setHead, h]

@[simp] theorem head_setTail : ((s.setTail n m).node a).head = (s.node a).head := by
  by_cases h : a = n
  · subst h
    simp [setTail]
  · simp [setTail, h]

@[simp] theorem tail_setTail :
    ((s.setTail n m).node a).tail = if a = n then m else (s.node a).tail := by
  by_cases h : a = n
  · subst h
    simp [setTail]
  · simp [setTail, h]

@[simp] theorem value_setTail : ((s.setTail n m).node a).value = (s.node a).value := by
  by_cases h : a = n
  · subst h
    simp [setTail]
  · simp [setTail, h]

end

theorem node_alloc (s : QLinkList α) (value : α) (a : Nat) :
    (s.alloc value).node a = if a = s.size then ⟨none, none, some value⟩ else s.node a :=
  Function.update_apply ..

/-- What `add` does: a new node between `p` and `q`. -/
structure Inserted (s s' : QLinkList α) (p q : Nat) (value : α) : Prop where
  headNode : s'.headNode = s.headNode
  tailNode : s'.tailNode = s.tailNode
  size : s'.size = s.size + 1
  tail : ∀ a, (s'.node a).tail =
    if a = p then some s.size else if a = s.size then some q else (s.node a).tail
  head : ∀ a, (s'.node a).head =
    if a = q then some s.size else if a = s.size then some p else (s.node a).head
  value : ∀ a, (s'.node a).value = if a = s.size then some value else (s.node a).value

theorem add_after {p : Nat} (htail : (s.node p).tail = some q) (hp : p ≠ s.size) (value : α) :
    ∃ s', s.add value (some p) = .ok s' ∧ Inserted s s' p q value := by
  have hnext : ((((s.alloc value).setHead s.size (some p)).setTail s.size (some q)).node p).tail =
      some q := by
    simp [node_alloc, hp, htail]
  refine ⟨((((s.alloc value).setHead s.size (some p)).setTail s.size (some q)).setHead q
    (some s.size)).setTail p (some s.size), ?_, rfl, rfl, rfl, fun a => ?_, fun a => ?_,
    fun a => ?_⟩
  · have e : (((s.alloc value).setHead s.size (some p)).node p).tail = some q := by
      simp [node_alloc, hp, htail]
    simp only [add, e, hnext, deref, Fuel.ok_bind]
  · simp only [tail_setTail, tail_setHead, node_alloc]
    split <;> [rfl; split <;> rfl]
  · simp only [head_setTail, head_setHead, node_alloc]
    split <;> [rfl; split <;> rfl]
  · simp only [value_setTail, value_setHead, node_alloc]
    split <;> rfl

theorem add_front (htail : (s.node s.headNode).tail = some q) (hp : s.headNode ≠ s.size)
    (hq : q ≠ s.size) (value : α) :
    ∃ s', s.add value none = .ok s' ∧ Inserted s s' s.headNode q value := by
  have hnext : ((s.alloc value).node s.headNode).tail = some q := by
    rw [node_alloc, if_neg hp, htail]
  refine ⟨((((s.alloc value).setHead q (some s.size)).setHead s.size (some s.headNode)).setTail
    s.size (some q)).setTail s.headNode (some s.size), ?_, rfl, rfl, rfl, fun a => ?_, fun a => ?_,
    fun a => ?_⟩
  · show (deref ((s.alloc value).node s.headNode).tail >>= fun tail => _) = _
    rw [hnext]
    rfl
  · simp only [tail_setTail, tail_setHead, node_alloc]
    split <;> [rfl; split <;> rfl]
  · simp only [head_setTail, head_setHead, node_alloc]
    by_cases ha : a = s.size
    · subst ha
      rw [if_pos rfl, if_neg hq.symm, if_pos rfl]
    · rw [if_neg ha, if_neg ha, if_neg ha]
  · simp only [value_setTail, value_setHead, node_alloc]
    split <;> rfl

/-- What `unlink` does, of a node between `p` and `q`. -/
structure Unlinked (s s' : QLinkList α) (p q : Nat) : Prop where
  headNode : s'.headNode = s.headNode
  tailNode : s'.tailNode = s.tailNode
  size : s'.size = s.size
  tail : ∀ a, (s'.node a).tail = if a = p then some q else (s.node a).tail
  head : ∀ a, (s'.node a).head = if a = q then some p else (s.node a).head
  value : ∀ a, (s'.node a).value = (s.node a).value

theorem unlink_between (hhead : (s.node n).head = some p) (htail : (s.node n).tail = some q) :
    ∃ s', s.unlink n = .ok s' ∧ Unlinked s s' p q := by
  refine ⟨(s.setTail p (some q)).setHead q (some p), ?_, rfl, rfl, rfl, fun a => ?_, fun a => ?_,
    fun a => ?_⟩
  · have e : ((s.setTail p (some q)).node n).tail = some q := by
      rw [tail_setTail]
      split <;> [rfl; exact htail]
    simp only [unlink, hhead, htail, deref, Fuel.ok_bind, e, head_setTail]
  · rw [tail_setHead, tail_setTail]
  · rw [head_setHead, head_setTail]
  · rw [value_setHead, value_setTail]

theorem path_eq (hh : s'.headNode = s.headNode) (ht : s'.tailNode = s.tailNode) (ns : List Nat) :
    s'.path ns = s.path ns := by
  rw [path, path, hh, ht]

namespace Holds

variable {items items' : List (Nat × α)} {A B : List Nat}

/-- Neighbours on the path. -/
theorem between (h : s.Holds items) (hpath : s.path (items.map Prod.fst) = A ++ p :: q :: B) :
    (s.node p).tail = some q ∧ (s.node q).head = some p :=
  (hpath ▸ h.linked).between

theorem ne_size (h : s.Holds items) : ∀ a ∈ s.path (items.map Prod.fst), a ≠ s.size :=
  fun a ha => Nat.ne_of_lt (h.lt_size a ha)

theorem fst_mem_path {e : Nat × α} (he : e ∈ items) : e.1 ∈ s.path (items.map Prod.fst) :=
  List.mem_cons_of_mem _ (List.mem_append_left _ (List.mem_map_of_mem he))

theorem inserted (h : s.Holds items) (hi : Inserted s s' p q value)
    (hpath : s.path (items.map Prod.fst) = A ++ p :: q :: B)
    (hpath' : s.path (items'.map Prod.fst) = A ++ p :: s.size :: q :: B)
    (hitems : ∀ e ∈ items', e = (s.size, value) ∨ e ∈ items) : s'.Holds items' := by
  have hpath'' : s'.path (items'.map Prod.fst) = A ++ p :: s.size :: q :: B := by
    rw [path_eq hi.headNode hi.tailNode, hpath']
  obtain ⟨hpq, hqp⟩ := h.between hpath
  have hhead := h.ne_size s.headNode (by simp [path])
  have htail := h.ne_size s.tailNode (by simp [path])
  have hheadq : s.headNode ≠ q := fun e => by
    rw [← e, h.headNode.1] at hqp
    cases hqp
  have htailp : s.tailNode ≠ p := fun e => by
    rw [← e, h.tailNode.1] at hpq
    cases hpq
  have hnew : s.size ∉ A ++ p :: q :: B := fun hm => h.ne_size _ (hpath ▸ hm) rfl
  have hp : p ≠ s.size := fun e => hnew (by simp [e])
  have hq : q ≠ s.size := fun e => hnew (by simp [e])
  have hperm : (A ++ p :: s.size :: q :: B).Perm (s.size :: (A ++ p :: q :: B)) := by
    have hm : ((A ++ [p]) ++ s.size :: q :: B).Perm (s.size :: ((A ++ [p]) ++ q :: B)) :=
      List.perm_middle
    simpa using hm
  refine ⟨hpath'' ▸ ?_, hpath'' ▸ ?_, hpath'' ▸ fun a ha => ?_, ?_, ?_, fun e he => ?_⟩
  · refine (hpath ▸ h.linked).insert (hpath ▸ h.nodup) hnew ?_ ?_ ?_ ?_ (fun a hap hax => ?_)
      fun a haq hax => ?_
    · rw [hi.tail, if_pos rfl]
    · rw [hi.tail, if_neg hp.symm, if_pos rfl]
    · rw [hi.head, if_neg hq.symm, if_pos rfl]
    · rw [hi.head, if_pos rfl]
    · rw [hi.tail, if_neg hap, if_neg hax]
    · rw [hi.head, if_neg haq, if_neg hax]
  · rw [hperm.nodup_iff]
    exact List.nodup_cons.mpr ⟨hnew, hpath ▸ h.nodup⟩
  · rw [hperm.mem_iff] at ha
    rw [hi.size]
    rcases List.mem_cons.mp ha with rfl | ha
    · exact Nat.lt_succ_self _
    · exact Nat.lt_succ_of_lt (h.lt_size a (hpath ▸ ha))
  · rw [hi.headNode, hi.head, if_neg hheadq, if_neg hhead, hi.value, if_neg hhead]
    exact h.headNode
  · rw [hi.tailNode, hi.tail, if_neg htailp, if_neg htail, hi.value, if_neg htail]
    exact h.tailNode
  · rw [hi.value]
    rcases hitems e he with rfl | he
    · exact if_pos rfl
    · rw [if_neg (h.ne_size _ (fst_mem_path he))]
      exact h.values e he

/-- Behind a node of the list there is another, the sentinel if nothing else. -/
theorem exists_next (s : QLinkList α) (l : List (Nat × α)) :
    ∃ q B, l.map Prod.fst ++ [s.tailNode] = q :: B :=
  List.exists_cons_of_ne_nil (by simp)

theorem add (h : s.Holds items) (value : α) : ∃ s', s.add value none = .ok s' ∧
    s'.size = s.size + 1 ∧ s'.Holds ((s.size, value) :: items) := by
  obtain ⟨q, B, hB⟩ := exists_next s items
  have hpath : s.path (items.map Prod.fst) = [] ++ s.headNode :: q :: B := by
    rw [path, hB, List.nil_append]
  have hq := h.ne_size q (hpath ▸ by simp)
  obtain ⟨s', e, hi⟩ := add_front (h.between hpath).1 (h.ne_size _ List.mem_cons_self) hq value
  refine ⟨s', e, hi.size, h.inserted hi hpath ?_ fun e he => List.mem_cons.mp he⟩
  rw [List.map_cons, path, List.cons_append, hB, List.nil_append]

theorem addAfter (h : s.Holds items) (hp : p ∈ items.map Prod.fst) (value : α) :
    ∃ s', s.add value (some p) = .ok s' ∧ s'.size = s.size + 1 ∧
      s'.Holds (Sequence.insertAfter p (s.size, value) items) := by
  obtain ⟨l₁, v, l₂, rfl, hins⟩ := Sequence.insertAfter_eq (s.size, value) hp
  obtain ⟨q, B, hB⟩ := exists_next s l₂
  have hpath : s.path ((l₁ ++ (p, v) :: l₂).map Prod.fst) =
      (s.headNode :: l₁.map Prod.fst) ++ p :: q :: B := by
    simp [path, ← hB]
  have hmem : p ∈ s.path ((l₁ ++ (p, v) :: l₂).map Prod.fst) := hpath ▸ by simp
  obtain ⟨s', e, hi⟩ := add_after (h.between hpath).1 (h.ne_size p hmem) value
  refine ⟨s', e, hi.size, h.inserted hi hpath ?_ fun e he => ?_⟩
  · simp [hins, path, ← hB]
  · rw [hins] at he
    simp only [List.mem_append, List.mem_cons] at he ⊢
    tauto

theorem unlinked (h : s.Holds items) (hu : Unlinked s s' p q)
    (hpath : s.path (items.map Prod.fst) = A ++ p :: n :: q :: B)
    (hpath' : s.path (items'.map Prod.fst) = A ++ p :: q :: B)
    (hitems : ∀ e ∈ items', e ∈ items) : s'.Holds items' := by
  have hpath'' : s'.path (items'.map Prod.fst) = A ++ p :: q :: B := by
    rw [path_eq hu.headNode hu.tailNode, hpath']
  have hpn := (h.between hpath).1
  have hqn := (h.between (A := A ++ [p]) (by simpa using hpath)).2
  have hheadq : s.headNode ≠ q := fun e => by
    rw [← e, h.headNode.1] at hqn
    cases hqn
  have htailp : s.tailNode ≠ p := fun e => by
    rw [← e, h.tailNode.1] at hpn
    cases hpn
  have hsub : (A ++ p :: q :: B).Sublist (A ++ p :: n :: q :: B) :=
    List.Sublist.append_left (List.Sublist.cons_cons p (List.sublist_cons_self ..)) A
  refine ⟨hpath'' ▸ ?_, hpath'' ▸ ?_, hpath'' ▸ fun a ha => ?_, ?_, ?_, fun e he => ?_⟩
  · refine (hpath ▸ h.linked).unlink (hpath ▸ h.nodup) ?_ ?_ (fun a ha => ?_) fun a ha => ?_
    · rw [hu.tail, if_pos rfl]
    · rw [hu.head, if_pos rfl]
    · rw [hu.tail, if_neg ha]
    · rw [hu.head, if_neg ha]
  · exact hsub.nodup (hpath ▸ h.nodup)
  · rw [hu.size]
    exact h.lt_size a (hpath ▸ hsub.subset ha)
  · rw [hu.headNode, hu.head, if_neg hheadq, hu.value]
    exact h.headNode
  · rw [hu.tailNode, hu.tail, if_neg htailp, hu.value]
    exact h.tailNode
  · rw [hu.value]
    exact h.values e (hitems e he)

theorem nodup_fst (h : s.Holds items) : (items.map Prod.fst).Nodup := by
  have hnd := (List.nodup_cons.mp h.nodup).2
  exact (List.nodup_append.mp hnd).1

theorem unlink (h : s.Holds items) (hn : n ∈ items.map Prod.fst) : ∃ s', s.unlink n = .ok s' ∧
    s'.size = s.size ∧ s'.Holds (items.filter fun e => e.1 ≠ n) := by
  obtain ⟨⟨n', v⟩, he, rfl⟩ := List.mem_map.mp hn
  obtain ⟨l₁, l₂, rfl⟩ := List.append_of_mem he
  obtain ⟨q, B, hB⟩ := exists_next s l₂
  obtain ⟨A, p, hA⟩ : ∃ A p, s.headNode :: l₁.map Prod.fst = A ++ [p] :=
    ⟨_, _, (List.dropLast_append_getLast (by simp)).symm⟩
  have hpath : s.path ((l₁ ++ (n', v) :: l₂).map Prod.fst) = A ++ p :: n' :: q :: B := by
    rw [List.append_cons A p, ← hA, ← hB]
    simp [path]
  have hpath' : s.path ((l₁ ++ l₂).map Prod.fst) = A ++ p :: q :: B := by
    rw [List.append_cons A p, ← hA, ← hB]
    simp [path]
  have hfilter : (l₁ ++ (n', v) :: l₂).filter (fun e => e.1 ≠ n') = l₁ ++ l₂ := by
    have hnd := h.nodup_fst
    rw [List.map_append, List.map_cons, List.nodup_append] at hnd
    obtain ⟨-, hnd₂, hdis⟩ := hnd
    rw [List.filter_append, List.filter_cons_of_neg (by simp), List.filter_eq_self.mpr,
      List.filter_eq_self.mpr]
    · intro e he
      have hne : e.1 ≠ n' := fun e' => (List.nodup_cons.mp hnd₂).1 (List.mem_map.mpr ⟨e, he, e'⟩)
      simpa using hne
    · intro e he
      have hne : e.1 ≠ n' := hdis e.1 (List.mem_map_of_mem he) n' List.mem_cons_self
      simpa using hne
  obtain ⟨hhead, htail⟩ : (s.node n').head = some p ∧ (s.node n').tail = some q :=
    ⟨(h.between hpath).2, (h.between (A := A ++ [p]) (by simpa using hpath)).1⟩
  obtain ⟨s', e, hu⟩ := unlink_between hhead htail
  rw [hfilter]
  refine ⟨s', e, hu.size, h.unlinked hu hpath hpath' fun e he => ?_⟩
  exact (List.Sublist.append_left (List.sublist_cons_self ..) l₁).subset he

/-- The loop of `remove`, in any order. -/
theorem unlinks {ns : List Nat} (h : s.Holds items) (hns : ns ⊆ items.map Prod.fst)
    (hnd : ns.Nodup) : ∃ s', ns.foldlM QLinkList.unlink s = .ok s' ∧ s'.size = s.size ∧
      s'.Holds (items.filter fun e => e.1 ∉ ns) := by
  induction ns generalizing s items with
  | nil => exact ⟨s, rfl, rfl, by simpa using h⟩
  | cons n ns ih =>
    obtain ⟨hn, hnd⟩ := List.nodup_cons.mp hnd
    obtain ⟨s₁, e₁, hsize₁, h₁⟩ := h.unlink (hns List.mem_cons_self)
    have hns₁ : ns ⊆ (items.filter fun e => e.1 ≠ n).map Prod.fst := by
      intro m hm
      obtain ⟨e, he, rfl⟩ := List.mem_map.mp (hns (List.mem_cons_of_mem n hm))
      have hne : e.1 ≠ n := fun e' => hn (e' ▸ hm)
      exact List.mem_map_of_mem (List.mem_filter.mpr ⟨he, by simpa using hne⟩)
    obtain ⟨s₂, e₂, hsize₂, h₂⟩ := ih h₁ hns₁ hnd
    refine ⟨s₂, by rw [List.foldlM_cons, e₁, Fuel.ok_bind, e₂], hsize₂.trans hsize₁, ?_⟩
    have hfilter : (items.filter fun e => e.1 ∉ n :: ns) =
        (items.filter fun e => e.1 ≠ n).filter fun e => e.1 ∉ ns := by
      rw [List.filter_filter]
      refine List.filter_congr fun e _ => ?_
      simp [Bool.and_comm]
    rwa [hfilter]

theorem findLoop_eq [BEq α] (s : QLinkList α) (value : α) {node : Option Nat} {ns : List Nat}
    (hw : walk (fun n => (s.node n).tail) fuel node = some ns) (tbNode : List Nat) :
    s.findLoop value fuel node tbNode =
      .ok (tbNode ++ ns.filter fun n => (s.node n).value == some value) := by
  induction fuel generalizing node ns tbNode with
  | zero => cases hw
  | succ fuel ih =>
    cases node with
    | none =>
      cases hw
      simp [findLoop]
    | some n =>
      obtain ⟨ns, hns, rfl⟩ := Option.map_eq_some_iff.mp hw
      rw [findLoop, ih hns]
      by_cases hv : (s.node n).value == some value
      · simp [hv]
      · simp [hv]

/-- The walk along `tail` meets the nodes and a sentinel. -/
theorem walk_tail (h : s.Holds items) (hf : items.length + 1 < fuel) :
    walk (fun n => (s.node n).tail) fuel (s.node s.headNode).tail =
      some (items.map Prod.fst ++ [s.tailNode]) := by
  refine h.linked.walk_next (fun b hb => ?_) (by simpa using hf)
  rw [← List.cons_append, List.getLast?_concat] at hb
  cases hb
  exact h.tailNode.1

/-- So does the walk along `head`. -/
theorem walk_head (h : s.Holds items) (hf : items.length + 1 < fuel) :
    walk (fun n => (s.node n).head) fuel (s.node s.tailNode).head =
      some ((items.map Prod.fst).reverse ++ [s.headNode]) := by
  have hlinked : Linked (fun n => (s.node n).head) (fun n => (s.node n).tail)
      (s.tailNode :: ((items.map Prod.fst).reverse ++ [s.headNode])) := by
    have hr := h.linked.reverse
    simpa [path] using hr
  refine hlinked.walk_next (fun b hb => ?_) (by simpa using hf)
  rw [← List.cons_append, List.getLast?_concat] at hb
  cases hb
  exact h.headNode.1

variable [BEq α]

/-- `find` gives the nodes that hold the value, and no sentinel. -/
theorem find (h : s.Holds items) (hf : items.length + 1 < fuel) (value : α) :
    s.find fuel value = .ok ((items.filter fun e => e.2 == value).map Prod.fst) := by
  rw [QLinkList.find, findLoop_eq s value (h.walk_tail hf), List.nil_append, List.filter_append,
    List.filter_map]
  have hlast : [s.tailNode].filter (fun n => (s.node n).value == some value) = [] := by
    rw [List.filter_singleton, h.tailNode.2]
    rfl
  rw [hlast, List.append_nil]
  congr 2
  refine List.filter_congr fun e he => ?_
  rw [Function.comp_apply, h.values e he]
  rfl

theorem remove (h : s.Holds items) (hf : items.length + 1 < fuel) (value : α)
    {order : List Nat → List Nat} (perm : ∀ ns, (order ns).Perm ns) :
    ∃ s', s.remove fuel value order = .ok s' ∧ s'.size = s.size ∧
      s'.Holds (items.filter fun e => !e.2 == value) := by
  have hperm := perm ((items.filter fun e => e.2 == value).map Prod.fst)
  have hnd : ((items.filter fun e => e.2 == value).map Prod.fst).Nodup :=
    (List.Sublist.map _ List.filter_sublist).nodup h.nodup_fst
  have hsub : order ((items.filter fun e => e.2 == value).map Prod.fst) ⊆ items.map Prod.fst :=
    fun n hn => (List.Sublist.map _ List.filter_sublist).subset (hperm.mem_iff.mp hn)
  obtain ⟨s', e, hsize, h'⟩ := h.unlinks hsub (hperm.nodup_iff.mpr hnd)
  have hfilter : (items.filter fun e => !e.2 == value) = items.filter fun e =>
      e.1 ∉ order ((items.filter fun e => e.2 == value).map Prod.fst) := by
    refine List.filter_congr fun e he => ?_
    have hmem : e.1 ∈ order ((items.filter fun e => e.2 == value).map Prod.fst) ↔
        (e.2 == value) = true := by
      rw [hperm.mem_iff, List.mem_map]
      constructor
      · rintro ⟨e', he', heq⟩
        obtain ⟨hm, hv⟩ := List.mem_filter.mp he'
        obtain rfl := List.inj_on_of_nodup_map h.nodup_fst hm he heq
        exact hv
      · exact fun hv => ⟨e, List.mem_filter.mpr ⟨he, hv⟩, rfl⟩
    simp only [hmem, decide_not, Bool.decide_eq_true]
  exact ⟨s', by rw [QLinkList.remove, h.find hf, Fuel.ok_bind, e], hsize, hfilter ▸ h'⟩

end Holds

/-! ## Runs -/

/-- The object holds the sequence, and the next node has its number. -/
structure Agrees (s : QLinkList α) (l : Sequence α) : Prop where
  holds : s.Holds l.items
  size : s.size = l.size

theorem Agrees.exec [BEq α] {l : Sequence α} (h : s.Agrees l) {op : Op α} (ho : l.Allows op)
    (hf : l.items.length + 1 < fuel) :
    ∃ s', s.exec fuel op = .ok s' ∧ s'.Agrees (l.exec op) := by
  cases op with
  | add value =>
    obtain ⟨s', e, hsize, h'⟩ := h.holds.add value
    rw [h.size] at h'
    exact ⟨s', e, h', hsize.trans (congrArg Nat.succ h.size)⟩
  | addAfter value posNode =>
    obtain ⟨s', e, hsize, h'⟩ := h.holds.addAfter ho value
    rw [h.size] at h'
    exact ⟨s', e, h', hsize.trans (congrArg Nat.succ h.size)⟩
  | remove value order perm =>
    obtain ⟨s', e, hsize, h'⟩ := h.holds.remove hf value perm
    exact ⟨s', e, h', hsize.trans h.size⟩

theorem length_exec_le [BEq α] (l : Sequence α) (op : Op α) :
    (l.exec op).items.length ≤ l.items.length + 1 := by
  cases op with
  | add value => exact Nat.le_refl _
  | addAfter value posNode =>
    show (Sequence.insertAfter posNode (l.size, value) l.items).length ≤ _
    induction l.items with
    | nil => exact Nat.zero_le _
    | cons e items ih =>
      rw [Sequence.insertAfter]
      split
      · exact Nat.le_refl _
      · exact Nat.succ_le_succ ih
  | remove value order perm => exact Nat.le_succ_of_le (List.length_filter_le _ _)

theorem Agrees.run [BEq α] {l : Sequence α} (h : s.Agrees l) {ops : List (Op α)}
    (ho : l.AllowsAll ops) (hf : l.items.length + ops.length < fuel) :
    ∃ s', s.run fuel ops = .ok s' ∧ s'.Agrees (ops.foldl Sequence.exec l) ∧
      (ops.foldl Sequence.exec l).items.length ≤ l.items.length + ops.length := by
  induction ops generalizing s l with
  | nil => exact ⟨s, rfl, h, Nat.le_refl _⟩
  | cons op ops ih =>
    rw [List.length_cons] at hf
    have hle := length_exec_le l op
    have hf₁ : l.items.length + 1 < fuel := by omega
    obtain ⟨s₁, e₁, h₁⟩ := h.exec ho.1 hf₁
    obtain ⟨s₂, e₂, h₂, hlen⟩ := ih h₁ ho.2 (by omega)
    refine ⟨s₂, ?_, h₂, ?_⟩
    · rw [QLinkList.run, List.foldlM_cons, e₁, Fuel.ok_bind]
      exact e₂
    · rw [List.foldl_cons, List.length_cons]
      omega

/-- What the list shows: the nodes of the items in the walks along both kinds of links, each with
its value, and what is found of them. -/
structure Shows [BEq α] (s : QLinkList α) (items : List (Nat × α)) (fuel : Nat) : Prop where
  forward : walk (fun n => (s.node n).tail) fuel (s.node s.headNode).tail =
    some (items.map Prod.fst ++ [s.tailNode])
  backward : walk (fun n => (s.node n).head) fuel (s.node s.tailNode).head =
    some ((items.map Prod.fst).reverse ++ [s.headNode])
  sentinels : s.headNode ∉ items.map Prod.fst ∧ s.tailNode ∉ items.map Prod.fst
  values : ∀ e ∈ items, (s.node e.1).value = some e.2
  find : ∀ value, s.find fuel value = .ok ((items.filter fun e => e.2 == value).map Prod.fst)

theorem Holds.shows [BEq α] {items : List (Nat × α)} (h : s.Holds items)
    (hf : items.length + 1 < fuel) : s.Shows items fuel where
  forward := h.walk_tail hf
  backward := h.walk_head hf
  sentinels := by
    obtain ⟨hhead, hnd⟩ := List.nodup_cons.mp h.nodup
    refine ⟨fun hm => hhead (List.mem_append_left _ hm), fun hm => ?_⟩
    exact (List.nodup_append.mp hnd).2.2 _ hm _ (List.mem_singleton_self _) rfl
  values := h.values
  find := h.find hf

/-- Every sequence of calls returns, and the list shows what they make of an empty sequence. -/
theorem run_shows [BEq α] (ops : List (Op α)) (ho : (Sequence.empty : Sequence α).AllowsAll ops) :
    ∀ fuel > ops.length + 1, ∃ s, (new : QLinkList α).run fuel ops = .ok s ∧
      s.Shows (ops.foldl Sequence.exec Sequence.empty).items fuel := by
  intro fuel hf
  have hstart : (new : QLinkList α).Agrees Sequence.empty := ⟨holds_new, rfl⟩
  have hf₀ : (Sequence.empty : Sequence α).items.length + ops.length < fuel := by
    simp only [Sequence.empty, List.length_nil]
    omega
  obtain ⟨s, e, h, hlen⟩ := hstart.run ho hf₀
  refine ⟨s, e, h.holds.shows ?_⟩
  simp only [Sequence.empty, List.length_nil, Nat.zero_add] at hlen ⊢
  omega

/-- The calls at the end of the file, and the one in its comment. -/
theorem run_shows_file :
    ∃ s, (new : QLinkList Nat).run 8 [.add 2, .add 3, .add 1, .add 4, .addAfter 6 3,
      .remove 3 id .refl] = .ok s ∧ s.Shows [(5, 4), (4, 1), (6, 6), (2, 2)] 8 :=
  run_shows _ (by simp [Sequence.AllowsAll, Sequence.Allows, Sequence.exec, Sequence.empty]) 8
    (by decide)

end QLinkList

end SkynetHotfix.Algorithm
