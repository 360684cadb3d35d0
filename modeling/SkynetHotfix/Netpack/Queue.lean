import SkynetHotfix.Netpack.Basic

/-!
# The queue as a table and a list

What a queue holds (`Holds`): for each fd the packet that is not complete, and
the list of the complete ones in order. The lists of the hash table keep the
packets of an fd apart from those of another with the same hash, and a ring
that is full is copied into a larger one.
-/

namespace SkynetHotfix.Netpack

open Function (update)

/-! ## The ring -/

/-- An index of a ring that may have gone past its end. -/
def wrap (cap i : Nat) : Nat := if i < cap then i else i - cap

theorem mod_eq_wrap {cap i j : Nat} (hi : i < cap) (hj : j ≤ cap) :
    (i + j) % cap = wrap cap (i + j) := by
  rw [wrap]
  split
  · exact Nat.mod_eq_of_lt ‹_›
  · rw [Nat.mod_eq_sub_mod (by omega), Nat.mod_eq_of_lt (by omega)]

namespace Queue

/-- The indices are in the ring, and an fd has one packet that is not complete. -/
structure WF (q : Queue) : Prop where
  head : q.head < q.cap
  tail : q.tail < q.cap
  ids : ∀ h, ((q.hash h).map fun uc => uc.pack.id).Nodup

def count (q : Queue) : Nat :=
  if q.head ≤ q.tail then q.tail - q.head else q.tail + q.cap - q.head

/-- The complete packets, in order. -/
def contents (q : Queue) : List Pack :=
  (List.range q.count).map fun i => q.queue (wrap q.cap (q.head + i))

/-- The packet of an fd that is not complete. -/
def pending (q : Queue) (fd : Int) : Option Uncomplete :=
  (q.hash (hash_fd fd)).find? fun uc => uc.pack.id = fd

theorem count_lt {q : Queue} (h : q.WF) : q.count < q.cap := by
  have hhead := h.head
  have htail := h.tail
  rw [count]
  split <;> omega

/-- The packets up to the tail, with one more there. -/
theorem store_snoc {q : Queue} (h : q.WF) (np : Pack) :
    (List.range (q.count + 1)).map (fun i => (q.store np).queue (wrap q.cap (q.head + i))) =
      q.contents ++ [np] := by
  have hhead := h.head
  have htail := h.tail
  rw [List.range_succ, List.map_append, contents, List.map_singleton]
  congr 1
  · refine List.map_congr_left fun i hi => Function.update_of_ne ?_ ..
    have hi := List.mem_range.mp hi
    rw [count] at hi
    rw [wrap]
    split at hi <;> split <;> omega
  · have htail : wrap q.cap (q.head + q.count) = q.tail := by
      rw [wrap, count]
      split <;> split <;> omega
    rw [htail]
    exact congrArg (· :: []) (Function.update_self ..)

theorem store_tail {q : Queue} (h : q.WF) (np : Pack) :
    (q.store np).tail = 0 ∧ q.tail + 1 = q.cap ∨
      (q.store np).tail = q.tail + 1 ∧ q.tail + 1 < q.cap := by
  have htail := h.tail
  rw [store]
  dsimp only
  split
  · exact .inl ⟨by omega, by omega⟩
  · exact .inr ⟨rfl, by omega⟩

/-- The tail has come round to the head just if the ring is full. -/
theorem head_eq_store_tail {q : Queue} (h : q.WF) (np : Pack) :
    q.head = (q.store np).tail ↔ q.count + 1 = q.cap := by
  have hhead := h.head
  have htail := h.tail
  rw [count]
  rcases store_tail h np with ⟨ht, ht'⟩ | ⟨ht, ht'⟩ <;> rw [ht] <;> split <;> omega

theorem contents_store {q : Queue} (h : q.WF) (np : Pack) (hne : q.head ≠ (q.store np).tail) :
    (q.store np).contents = q.contents ++ [np] := by
  have hhead := h.head
  have htail := h.tail
  have hcount : (q.store np).count = q.count + 1 := by
    have hc : (q.store np).count = if q.head ≤ (q.store np).tail then (q.store np).tail - q.head
      else (q.store np).tail + q.cap - q.head := rfl
    rw [hc, count]
    rcases store_tail h np with ⟨ht, ht'⟩ | ⟨ht, ht'⟩ <;> rw [ht] at hne ⊢ <;> split <;> split <;>
      omega
  rw [← store_snoc h, contents, hcount]
  rfl

theorem contents_expand {q : Queue} (h : q.WF) (np : Pack) (hfull : q.count + 1 = q.cap) :
    (expand_queue (q.store np)).contents = q.contents ++ [np] := by
  have hcount : (expand_queue (q.store np)).count = q.cap := by
    rw [count, expand_queue]
    exact if_pos (Nat.zero_le _)
  rw [← store_snoc h, hfull, contents, hcount]
  refine List.map_congr_left fun i hi => ?_
  have hi := List.mem_range.mp hi
  have hw : wrap (expand_queue (q.store np)).cap ((expand_queue (q.store np)).head + i) = i := by
    have hw : wrap (q.cap + QUEUESIZE) (0 + i) = i := by
      rw [wrap, if_pos (by omega), Nat.zero_add]
    exact hw
  rw [hw]
  exact (if_pos hi).trans
    (congrArg (q.store np).queue (mod_eq_wrap h.head (Nat.le_of_lt hi)))

end Queue

/-! ## The table -/

theorem unlink_none {fd : Int} {l : List Uncomplete} (h : unlink fd l = none) :
    l.find? (fun uc => uc.pack.id = fd) = none := by
  induction l with
  | nil => rfl
  | cons uc l ih =>
    rw [unlink] at h
    split at h
    · cases h
    · rename_i hne
      rw [List.find?_cons_of_neg (by simpa using hne)]
      exact ih (by simpa using h)

theorem unlink_some {fd : Int} {l l' : List Uncomplete} {uc : Uncomplete}
    (h : unlink fd l = some (uc, l')) :
    l.find? (fun uc => uc.pack.id = fd) = some uc ∧ l.Perm (uc :: l') ∧ uc.pack.id = fd ∧
    ∀ fd', fd' ≠ fd → l'.find? (fun uc => uc.pack.id = fd') = l.find? fun uc => uc.pack.id = fd' := by
  induction l generalizing l' with
  | nil => cases h
  | cons x l ih =>
    rw [unlink] at h
    split at h
    · rename_i hx
      cases h
      refine ⟨List.find?_cons_of_pos (by simpa using hx), .refl _, hx, fun fd' hne => ?_⟩
      rw [List.find?_cons_of_neg (by simpa [hx] using hne.symm)]
    · rename_i hx
      obtain ⟨⟨y, l''⟩, hu, e⟩ := Option.map_eq_some_iff.mp h
      cases e
      obtain ⟨hfind, hperm, hid, hrest⟩ := ih hu
      refine ⟨?_, (hperm.cons x).trans (.swap ..), hid, fun fd' hne => ?_⟩
      · rw [List.find?_cons_of_neg (by simpa using hx), hfind]
      · by_cases hx' : x.pack.id = fd'
        · rw [List.find?_cons_of_pos (by simpa using hx'),
            List.find?_cons_of_pos (by simpa using hx')]
        · rw [List.find?_cons_of_neg (by simpa using hx'),
            List.find?_cons_of_neg (by simpa using hx'), hrest fd' hne]

/-! ## What a queue holds -/

def Holds (q : Option Queue) (pend : Int → Option Uncomplete) (ring : List Pack) : Prop :=
  match q with
  | none => (∀ fd, pend fd = none) ∧ ring = []
  | some q => q.WF ∧ (∀ fd, q.pending fd = pend fd) ∧ q.contents = ring

namespace Holds

variable {q : Option Queue} {pend : Int → Option Uncomplete} {ring : List Pack} {fd : Int}

theorem get_queue (h : Holds q pend ring) : Holds (some (get_queue q)) pend ring := by
  cases q with
  | some q => exact h
  | none =>
    obtain ⟨hpend, rfl⟩ := h
    exact ⟨⟨by decide, by decide, fun _ => List.nodup_nil⟩, fun fd => (hpend fd).symm, rfl⟩

theorem find_uncomplete (h : Holds q pend ring) (fd : Int) :
    ∃ q', Netpack.find_uncomplete q fd = (pend fd, q') ∧ Holds q' (update pend fd none) ring := by
  cases q with
  | none =>
    obtain ⟨hpend, rfl⟩ := h
    refine ⟨none, by rw [Netpack.find_uncomplete, hpend fd], fun fd' => ?_, rfl⟩
    by_cases hfd : fd' = fd
    · rw [hfd, Function.update_self]
    · rw [Function.update_of_ne hfd, hpend]
  | some q =>
    obtain ⟨hwf, hpend, hring⟩ := h
    have hfd := hpend fd
    rw [Netpack.find_uncomplete]
    cases hu : unlink fd (q.hash (hash_fd fd)) with
    | none =>
      rw [Queue.pending, unlink_none hu] at hfd
      refine ⟨some q, by rw [← hfd], hwf, fun fd' => ?_, hring⟩
      by_cases h : fd' = fd
      · subst h
        rw [Function.update_self, Queue.pending, unlink_none hu]
      · rw [Function.update_of_ne h, hpend]
    | some p =>
      obtain ⟨uc, list⟩ := p
      obtain ⟨hfind, hperm, hid, hrest⟩ := unlink_some hu
      rw [Queue.pending, hfind] at hfd
      have hnodup := (hperm.map fun uc => uc.pack.id).nodup_iff.mp (hwf.ids (hash_fd fd))
      obtain ⟨hout, hnodup⟩ := List.nodup_cons.mp hnodup
      refine ⟨some { q with hash := update q.hash (hash_fd fd) list }, by rw [← hfd],
        ⟨hwf.head, hwf.tail, fun h => ?_⟩, fun fd' => ?_, hring⟩
      · by_cases hh : h = hash_fd fd
        · subst hh
          simpa using hnodup
        · simpa [hh] using hwf.ids h
      · by_cases h : fd' = fd
        · subst h
          rw [Function.update_self, Queue.pending, List.find?_eq_none]
          intro x hx he
          dsimp only at hx
          rw [Function.update_self] at hx
          have he : x.pack.id = fd' := by simpa using he
          exact hout (List.mem_map.mpr ⟨x, hx, he.trans hid.symm⟩)
        · rw [Function.update_of_ne h, ← hpend, Queue.pending, Queue.pending]
          dsimp only
          by_cases hh : hash_fd fd' = hash_fd fd
          · rw [hh, Function.update_self, hrest fd' h]
          · rw [Function.update_of_ne hh]

theorem save_uncomplete (h : Holds q pend ring) (hfd : pend fd = none) (uc : Uncomplete) :
    Holds (save_uncomplete q fd uc)
      (update pend fd (some { uc with pack := ⟨fd, uc.pack.size, uc.pack.buffer⟩ })) ring := by
  obtain ⟨hwf, hpend, hring⟩ := h.get_queue
  rw [Netpack.save_uncomplete]
  rw [← hpend, Queue.pending, List.find?_eq_none] at hfd
  refine ⟨⟨hwf.head, hwf.tail, fun h => ?_⟩, fun fd' => ?_, hring⟩
  · dsimp only
    by_cases hh : h = hash_fd fd
    · subst hh
      rw [Function.update_self, List.map_cons, List.nodup_cons]
      refine ⟨fun hm => ?_, hwf.ids _⟩
      obtain ⟨x, hx, he⟩ := List.mem_map.mp hm
      exact hfd x hx (decide_eq_true he)
    · rw [Function.update_of_ne hh]
      exact hwf.ids h
  · by_cases h : fd' = fd
    · subst h
      rw [Function.update_self, Queue.pending]
      dsimp only
      rw [Function.update_self]
      exact List.find?_cons_of_pos (decide_eq_true rfl)
    · rw [Function.update_of_ne h, ← hpend, Queue.pending, Queue.pending]
      dsimp only
      by_cases hh : hash_fd fd' = hash_fd fd
      · rw [hh, Function.update_self, List.find?_cons_of_neg]
        simpa using Ne.symm h
      · rw [Function.update_of_ne hh]

/-- What is pushed is at the end of the ring. -/
theorem pushed {q' : Option Queue} {buffer : List UInt8} {size : Int} {clone : Bool}
    (h : Holds q pend ring) (hu : push_data q fd buffer size clone = .ok q') :
    Holds q' pend (ring ++ [⟨fd, size, buffer⟩]) := by
  obtain ⟨hwf, hpend, hring⟩ := h.get_queue
  have hcap := Nat.lt_of_le_of_lt (Nat.zero_le _) hwf.head
  obtain ⟨-, -, hu⟩ := Fuel.bind_eq_ok.mp hu
  cases hu
  split
  · rename_i hfull
    refine ⟨⟨Nat.lt_add_right _ hcap, Nat.lt_add_of_pos_right (by decide), hwf.ids⟩, hpend, ?_⟩
    rw [Queue.contents_expand hwf _ ((Queue.head_eq_store_tail hwf _).mp hfull), hring]
  · rename_i hne
    refine ⟨⟨hwf.head, ?_, hwf.ids⟩, hpend, ?_⟩
    · have htail := hwf.tail
      rw [Queue.store]
      dsimp only
      split <;> omega
    · rw [Queue.contents_store hwf _ hne, hring]

theorem push_data (h : Holds q pend ring) (buffer : List UInt8) {size : Int} (hs : 0 ≤ size)
    (clone : Bool) : ∃ q', push_data q fd buffer size clone = .ok q' ∧
      Holds q' pend (ring ++ [⟨fd, size, buffer⟩]) := by
  have hm : (if clone then malloc size else .ok ()) = (.ok () : Result Unit) := by
    split
    · rw [malloc, if_neg (by omega)]
    · rfl
  have hu : Netpack.push_data q fd buffer size clone = _ := Fuel.bind_eq_ok.mpr ⟨(), hm, rfl⟩
  exact ⟨_, hu, h.pushed hu⟩

theorem lpop_cons {p : Pack} (h : Holds q pend (p :: ring)) :
    ∃ q', lpop q = (some p, q') ∧ Holds q' pend ring := by
  cases q with
  | none => cases h.2
  | some q =>
    obtain ⟨hwf, hpend, hring⟩ := h
    have hhead := hwf.head
    have htail := hwf.tail
    obtain ⟨n, hn⟩ : ∃ n, q.count = n + 1 := by
      refine ⟨ring.length, ?_⟩
      rw [← List.length_cons (a := p), ← hring, Queue.contents, List.length_map, List.length_range]
    have hne : q.head ≠ q.tail := by
      rw [Queue.count] at hn
      split at hn <;> omega
    rw [Queue.contents, hn, List.range_succ_eq_map, List.map_cons] at hring
    obtain ⟨hp, hring⟩ := List.cons.inj hring
    have hw : wrap q.cap (q.head + 0) = q.head := by rw [wrap, if_pos (by omega), Nat.add_zero]
    rw [hw] at hp
    refine ⟨some { q with head := if q.head + 1 ≥ q.cap then 0 else q.head + 1 },
      by rw [lpop, if_neg hne, hp], ⟨?_, htail, hwf.ids⟩, hpend, ?_⟩
    · dsimp only
      split <;> omega
    · have hcount : (Queue.count { q with
          head := if q.head + 1 ≥ q.cap then 0 else q.head + 1 }) = n := by
        rw [Queue.count] at hn ⊢
        dsimp only
        split at hn <;> split <;> split <;> omega
      rw [Queue.contents, hcount, ← hring, List.map_map]
      refine List.map_congr_left fun i hi => ?_
      have hi := List.mem_range.mp hi
      dsimp only [Function.comp_apply]
      congr 1
      rw [Queue.count] at hn
      rw [wrap, wrap]
      split at hn <;> split <;> split <;> split <;> omega

theorem lpop_nil (h : Holds q pend []) : lpop q = (none, q) := by
  cases q with
  | none => rfl
  | some q =>
    obtain ⟨hwf, -, hring⟩ := h
    have hhead := hwf.head
    have htail := hwf.tail
    have hcount : q.count = 0 := by
      rw [Queue.contents] at hring
      simpa using hring
    have heq : q.head = q.tail := by
      rw [Queue.count] at hcount
      split at hcount <;> omega
    rw [lpop, if_pos heq]

end Holds

end SkynetHotfix.Netpack
