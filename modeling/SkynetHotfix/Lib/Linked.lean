import Mathlib.Data.List.Chain
import Mathlib.Data.List.Nodup

/-!
# Doubly linked lists

Nodes with links to the next and the previous one. `Linked` says that a path of
nodes is linked both ways; it is kept where a node is put between two
neighbours (`Linked.insert`) or taken out (`Linked.unlink`), whatever
becomes of the links of the other nodes. A `walk` follows one kind of links to where they end:
on a linked path it meets the path (`Linked.walk_eq`).
-/

namespace Links

variable {ν : Type*} {next prev next' prev' : ν → Option ν} {path l₁ l₂ : List ν} {p q x : ν}

/-- Neighbours on the path are linked, both ways. -/
def Linked (next prev : ν → Option ν) (path : List ν) : Prop :=
  path.IsChain fun a b => next a = some b ∧ prev b = some a

/-- The nodes from `a` on; `none` where the fuel does not do. -/
def walk (next : ν → Option ν) : Nat → Option ν → Option (List ν)
  | 0, _ => none
  | _ + 1, none => some []
  | n + 1, some a => (walk next n (next a)).map (a :: ·)

namespace Linked

theorem reverse (h : Linked next prev path) : Linked prev next path.reverse := by
  refine List.isChain_reverse.mpr (List.IsChain.imp (fun a b hab => ?_) h)
  exact ⟨hab.2, hab.1⟩

/-- Neighbours on a linked path. -/
theorem between (h : Linked next prev (l₁ ++ p :: q :: l₂)) : next p = some q ∧ prev q = some p :=
  And.left (List.isChain_append_cons_cons.mp h).2

/-- Only links along the path matter. -/
theorem congr (h : Linked next prev path) (hn : ∀ a ∈ path.dropLast, next' a = next a)
    (hp : ∀ a ∈ path.tail, prev' a = prev a) : Linked next' prev' path := by
  induction path with
  | nil => exact .nil
  | cons a path ih =>
    cases path with
    | nil => exact .singleton a
    | cons b path =>
      obtain ⟨⟨hab, hba⟩, hrest⟩ := List.isChain_cons_cons.mp h
      refine List.isChain_cons_cons.mpr ⟨⟨?_, ?_⟩, ih hrest (fun c hc => hn c ?_) fun c hc => ?_⟩
      · rw [hn a (by simp), hab]
      · rw [hp b (by simp), hba]
      · exact List.mem_cons_of_mem a hc
      · exact hp c (List.mem_cons_of_mem b hc)

/-- What is before a gap in the path and what is behind it stays linked, where only the ends of the
gap get other links. -/
theorem parts (gap : List ν) (h : Linked next prev (l₁ ++ p :: (gap ++ q :: l₂)))
    (hnd : (l₁ ++ p :: (gap ++ q :: l₂)).Nodup)
    (hn : ∀ a ∈ l₁ ++ p :: (gap ++ q :: l₂), a ≠ p → next' a = next a)
    (hp : ∀ a ∈ l₁ ++ p :: (gap ++ q :: l₂), a ≠ q → prev' a = prev a) :
    Linked next' prev' (l₁ ++ [p]) ∧ Linked next' prev' (q :: l₂) := by
  obtain ⟨h₁, h⟩ := List.isChain_split.mp h
  obtain ⟨-, h₂⟩ := List.isChain_split.mp (show List.IsChain _ ((p :: gap) ++ q :: l₂) from h)
  obtain ⟨-, hnd₂, hdis⟩ := List.nodup_append.mp hnd
  obtain ⟨hpn, hnd₂⟩ := List.nodup_cons.mp hnd₂
  obtain ⟨hqn, -⟩ := List.nodup_cons.mp (List.nodup_append.mp hnd₂).2.1
  have hpq : p ≠ q := fun e => hpn (e ▸ by simp)
  refine ⟨congr h₁ (fun a ha => ?_) fun a ha => ?_, congr h₂ (fun a ha => ?_) fun a ha => ?_⟩
  · rw [List.dropLast_concat] at ha
    exact hn a (List.mem_append_left _ ha) (hdis a ha p List.mem_cons_self)
  · rcases List.mem_append.mp (List.mem_of_mem_tail ha) with ha | ha
    · exact hp a (List.mem_append_left _ ha) (hdis a ha q (by simp))
    · rw [List.mem_singleton.mp ha]
      exact hp p (by simp) hpq
  · have ha := (List.dropLast_subset _) ha
    refine hn a (by simp [List.mem_cons.mp ha]) fun e => hpn ?_
    rw [← e]
    exact List.mem_append_right _ ha
  · rw [List.tail_cons] at ha
    exact hp a (by simp [ha]) fun e => hqn (e ▸ ha)

/-- A node that is put between two neighbours. -/
theorem insert (h : Linked next prev (l₁ ++ p :: q :: l₂)) (hnd : (l₁ ++ p :: q :: l₂).Nodup)
    (hx : x ∉ l₁ ++ p :: q :: l₂) (hnp : next' p = some x) (hnx : next' x = some q)
    (hpx : prev' x = some p) (hpq : prev' q = some x)
    (hn : ∀ a, a ≠ p → a ≠ x → next' a = next a) (hp : ∀ a, a ≠ q → a ≠ x → prev' a = prev a) :
    Linked next' prev' (l₁ ++ p :: x :: q :: l₂) := by
  have hne : ∀ a ∈ l₁ ++ p :: q :: l₂, a ≠ x := fun a ha e => hx (e ▸ ha)
  obtain ⟨h₁, h₂⟩ := parts [] h hnd (fun a ha hap => hn a hap (hne a ha))
    fun a ha haq => hp a haq (hne a ha)
  exact List.isChain_append_cons_cons.mpr
    ⟨h₁, ⟨hnp, hpx⟩, List.isChain_cons_cons.mpr ⟨⟨hnx, hpq⟩, h₂⟩⟩

/-- A node that is taken out. -/
theorem unlink (h : Linked next prev (l₁ ++ p :: x :: q :: l₂))
    (hnd : (l₁ ++ p :: x :: q :: l₂).Nodup) (hnp : next' p = some q) (hpq : prev' q = some p)
    (hn : ∀ a, a ≠ p → next' a = next a) (hp : ∀ a, a ≠ q → prev' a = prev a) :
    Linked next' prev' (l₁ ++ p :: q :: l₂) := by
  obtain ⟨h₁, h₂⟩ := parts [x] h hnd (fun a _ => hn a) fun a _ => hp a
  exact List.isChain_append_cons_cons.mpr ⟨h₁, ⟨hnp, hpq⟩, h₂⟩

/-- Following the links meets the whole path. -/
theorem walk_eq (h : Linked next prev path) (hend : ∀ a ∈ path.getLast?, next a = none) {n : Nat}
    (hn : path.length < n) : walk next n path.head? = some path := by
  induction path generalizing n with
  | nil =>
    obtain ⟨n, rfl⟩ := Nat.exists_eq_add_one_of_ne_zero (Nat.ne_of_gt hn)
    rfl
  | cons a path ih =>
    obtain ⟨n, rfl⟩ := Nat.exists_eq_add_one_of_ne_zero (Nat.ne_of_gt (Nat.zero_lt_of_lt hn))
    have hhead : next a = path.head? ∧ Linked next prev path := by
      cases path with
      | nil => exact ⟨hend a rfl, .nil⟩
      | cons b path =>
        obtain ⟨hab, hrest⟩ := List.isChain_cons_cons.mp h
        exact ⟨hab.1, hrest⟩
    have hend' : ∀ b ∈ path.getLast?, next b = none := fun b hb =>
      hend b (by rw [List.getLast?_cons, hb]; rfl)
    show (walk next n (next a)).map (a :: ·) = _
    rw [hhead.1, ih hhead.2 hend' (Nat.lt_of_succ_lt_succ hn)]
    rfl

/-- Following the links from the first node on meets the others. -/
theorem walk_next {a : ν} (h : Linked next prev (a :: path))
    (hend : ∀ b ∈ (a :: path).getLast?, next b = none) {n : Nat} (hn : path.length < n) :
    walk next n (next a) = some path := by
  have hw : (walk next n (next a)).map (a :: ·) = some (a :: path) :=
    h.walk_eq hend (Nat.succ_lt_succ hn)
  obtain ⟨path', hpath, he⟩ := Option.map_eq_some_iff.mp hw
  rw [hpath, List.tail_eq_of_cons_eq he]

end Linked

end Links
