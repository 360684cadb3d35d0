import Mathlib.Algebra.GroupWithZero.Nat
import Mathlib.Data.List.Perm.Basic
import SkynetHotfix.Lib.Machine

/-!
# The lock of the handles

`rwlock.h`, without pthreads: readers count themselves in `read` and look at `write` afterwards, a
writer sets `write` and then waits for `read` to become 0. Each access to the lock is a step, and
the steps of any number of threads come in any order.

For every run a writer is alone (`exclusion`), and there is always a way on (`gets_in`).
-/

namespace SkynetHotfix.Skynet.Lock

/-- `struct rwlock` -/
structure RwLock where
  write : Nat
  read : Nat

def rwlock_init : RwLock := ⟨0, 0⟩

/-- Where a thread is; `reading` and `writing` have the lock. -/
inductive Pc
  | idle
  /-- `rwlock_rlock`, at `while(lock->write)` -/
  | rlock
  /-- at `__sync_add_and_fetch(&lock->read,1)` -/
  | add
  /-- at `if (lock->write)` -/
  | check
  /-- at `__sync_sub_and_fetch(&lock->read,1)` -/
  | sub
  | reading
  /-- `rwlock_wlock`, at `__sync_lock_test_and_set(&lock->write,1)` -/
  | wlock
  /-- at `while(lock->read)` -/
  | wait
  | writing
deriving DecidableEq

/-- One step of a thread; one that is idle begins to write or to read. -/
def Pc.step (lock : RwLock) (write : Bool) : Pc → RwLock × Pc
  | idle => (lock, if write then wlock else rlock)
  | rlock => (lock, if lock.write ≠ 0 then rlock else add)
  | add => ({ lock with read := lock.read + 1 }, check)
  | check => (lock, if lock.write ≠ 0 then sub else reading)
  | sub => ({ lock with read := lock.read - 1 }, rlock)
  | reading => ({ lock with read := lock.read - 1 }, idle)
  | wlock => ({ lock with write := 1 }, if lock.write ≠ 0 then wlock else wait)
  | wait => (lock, if lock.read ≠ 0 then wait else writing)
  | writing => ({ lock with write := 0 }, idle)

structure World where
  lock : RwLock
  threads : List Pc

/-- A step of the thread `i`. -/
def World.exec (w : World) (e : Nat × Bool) : World :=
  match w.threads[e.1]? with
  | some pc => ⟨(pc.step w.lock e.2).1, w.threads.set e.1 (pc.step w.lock e.2).2⟩
  | none => w

def World.new (n : Nat) : World := ⟨rwlock_init, List.replicate n .idle⟩

/-- The states that `n` threads reach. -/
def Reached (n : Nat) : World → Prop :=
  Machine.Reach World.exec (fun _ _ => True) (World.new n)

def Pc.counted : Pc → Bool
  | check | sub | reading => true
  | _ => false

def Pc.marked : Pc → Bool
  | wait | writing => true
  | _ => false

/-- `read` counts the readers between their two accesses to it, `write` is set by one writer, and
none reads while it writes. -/
structure Kept (lock : RwLock) (threads : List Pc) : Prop where
  read : lock.read = threads.countP Pc.counted
  write : lock.write = threads.countP Pc.marked
  one : lock.write ≤ 1
  excluded : threads.count .writing = 0 ∨ threads.count .reading = 0

variable {lock : RwLock} {pc : Pc} {l l' : List Pc} {w : World} {n : Nat}

theorem Kept.perm (h : Kept lock l) (hp : l.Perm l') : Kept lock l' :=
  ⟨hp.countP_eq _ ▸ h.read, hp.countP_eq _ ▸ h.write, h.one,
    hp.count_eq _ ▸ hp.count_eq _ ▸ h.excluded⟩

theorem count_writing_le (l : List Pc) : l.count .writing ≤ l.countP Pc.marked := by
  refine List.countP_mono_left fun pc _ h => ?_
  rw [beq_iff_eq.mp h]
  rfl

theorem count_reading_le (l : List Pc) : l.count .reading ≤ l.countP Pc.counted := by
  refine List.countP_mono_left fun pc _ h => ?_
  rw [beq_iff_eq.mp h]
  rfl

/-- The share of one thread. -/
theorem kept_cons : Kept lock (pc :: l) ↔
    lock.read = l.countP Pc.counted + pc.counted.toNat ∧
    lock.write = l.countP Pc.marked + pc.marked.toNat ∧ lock.write ≤ 1 ∧
    (l.count .writing + (pc == .writing).toNat = 0 ∨
      l.count .reading + (pc == .reading).toNat = 0) := by
  have hcount (q : Pc) : (pc :: l).count q = l.count q + (pc == q).toNat := by
    rw [List.count_cons]
    cases pc == q <;> rfl
  have hcountP (p : Pc → Bool) : (pc :: l).countP p = l.countP p + (p pc).toNat := by
    rw [List.countP_cons]
    cases p pc <;> rfl
  refine ⟨fun h => ?_, fun h => ?_⟩
  · exact ⟨hcountP _ ▸ h.read, hcountP _ ▸ h.write, h.one, hcount _ ▸ hcount _ ▸ h.excluded⟩
  · refine ⟨hcountP _ ▸ h.1, hcountP _ ▸ h.2.1, h.2.2.1, ?_⟩
    rw [hcount, hcount]
    exact h.2.2.2

/-- One thread takes a step: a reader comes in only where `write` is not set, a writer only where
nobody is counted. -/
theorem Kept.step (h : Kept lock (pc :: l)) (write : Bool) :
    Kept (pc.step lock write).1 ((pc.step lock write).2 :: l) := by
  have hwriting := count_writing_le l
  have hreading := count_reading_le l
  rw [kept_cons] at h ⊢
  cases pc with
  | idle => cases write <;> simpa [Pc.step, Pc.counted, Pc.marked] using h
  | rlock =>
    by_cases hw : lock.write = 0
    all_goals
      simp [Pc.counted, Pc.marked] at h
      simp [Pc.step, hw, Pc.counted, Pc.marked]
      omega
  | add =>
    simp [Pc.step, Pc.counted, Pc.marked] at h ⊢
    omega
  | check =>
    by_cases hw : lock.write = 0
    all_goals
      simp [Pc.counted, Pc.marked] at h
      simp [Pc.step, hw, Pc.counted, Pc.marked]
      omega
  | sub =>
    simp [Pc.step, Pc.counted, Pc.marked] at h ⊢
    omega
  | reading =>
    simp [Pc.step, Pc.counted, Pc.marked] at h ⊢
    omega
  | wlock =>
    by_cases hw : lock.write = 0
    all_goals
      simp [Pc.counted, Pc.marked] at h
      simp [Pc.step, hw, Pc.counted, Pc.marked, -List.countP_eq_zero]
      omega
  | wait =>
    by_cases hr : lock.read = 0
    all_goals
      simp [Pc.counted, Pc.marked] at h
      simp [Pc.step, hr, Pc.counted, Pc.marked]
      omega
  | writing =>
    simp [Pc.step, Pc.counted, Pc.marked] at h ⊢
    omega

theorem World.exec_kept (h : Kept w.lock w.threads) (e : Nat × Bool) :
    Kept (w.exec e).lock (w.exec e).threads := by
  rw [World.exec]
  split
  · next pc hpc =>
    obtain ⟨hlt, rfl⟩ := List.getElem?_eq_some_iff.mp hpc
    have hstep := (h.perm (List.getElem_cons_eraseIdx_perm hlt).symm).step e.2
    exact hstep.perm (List.set_perm_cons_eraseIdx hlt _).symm
  · exact h

theorem Reached.kept (h : Reached n w) : Kept w.lock w.threads := by
  refine Machine.Reach.invariant (I := fun w => Kept w.lock w.threads) h ?_
    fun w e hk _ => World.exec_kept hk e
  refine ⟨?_, ?_, Nat.zero_le 1, .inl ?_⟩
  · exact (List.countP_eq_zero.mpr fun pc hpc => by rw [List.eq_of_mem_replicate hpc]; decide).symm
  · exact (List.countP_eq_zero.mpr fun pc hpc => by rw [List.eq_of_mem_replicate hpc]; decide).symm
  · exact List.count_eq_zero.mpr fun hpc => by cases List.eq_of_mem_replicate hpc

/-! ### There is a way on -/

/-- Steps of the threads lead to a state with `P`. -/
def World.Leads (P : World → Prop) (w : World) : Prop :=
  ∃ es : List (Nat × Bool), P (es.foldl World.exec w)

theorem World.Leads.step {P : World → Prop} (e : Nat × Bool) (h : (w.exec e).Leads P) :
    w.Leads P := by
  obtain ⟨es, hes⟩ := h
  exact ⟨e :: es, hes⟩

theorem World.exec_eq {i : Nat} (hpc : w.threads[i]? = some pc) (write : Bool) :
    w.exec (i, write) = ⟨(pc.step w.lock write).1, w.threads.set i (pc.step w.lock write).2⟩ := by
  rw [World.exec, hpc]

theorem World.getElem_exec {i : Nat} (hpc : w.threads[i]? = some pc) (write : Bool) :
    (w.exec (i, write)).threads[i]? = some (pc.step w.lock write).2 := by
  rw [World.exec_eq hpc, List.getElem?_set_self (List.getElem?_eq_some_iff.mp hpc).1]

/-- Some thread has the lock. -/
def World.Held (w : World) : Prop := .reading ∈ w.threads ∨ .writing ∈ w.threads

theorem World.held_of_getElem {i : Nat} (hpc : w.threads[i]? = some pc)
    (h : pc = .reading ∨ pc = .writing) : w.Held := by
  have hmem := List.mem_of_getElem? hpc
  rcases h with rfl | rfl
  · exact .inl hmem
  · exact .inr hmem

theorem World.Leads.refl {P : World → Prop} (h : P w) : w.Leads P := ⟨[], h⟩

/-- A reader comes in where no writer is about. -/
theorem World.reads {i : Nat} (hw : w.lock.write = 0) (hpc : w.threads[i]? = some pc)
    (h : pc = .rlock ∨ pc = .add ∨ pc = .check ∨ pc = .sub) : w.Leads World.Held := by
  have check {w : World} (hw : w.lock.write = 0) (hpc : w.threads[i]? = some .check) :
      w.Leads World.Held := by
    refine .step (i, false) (.refl ?_)
    exact World.held_of_getElem (World.getElem_exec hpc false) (.inl (by simp [Pc.step, hw]))
  have add {w : World} (hw : w.lock.write = 0) (hpc : w.threads[i]? = some .add) :
      w.Leads World.Held := by
    refine .step (i, false) (check ?_ (World.getElem_exec hpc false))
    rw [World.exec_eq hpc]
    exact hw
  have rlock {w : World} (hw : w.lock.write = 0) (hpc : w.threads[i]? = some .rlock) :
      w.Leads World.Held := by
    refine .step (i, false) (add ?_ ?_)
    · rw [World.exec_eq hpc]
      exact hw
    · rw [World.getElem_exec hpc]
      simp [Pc.step, hw]
  rcases h with rfl | rfl | rfl | rfl
  · exact rlock hw hpc
  · exact add hw hpc
  · exact check hw hpc
  · refine .step (i, false) (rlock ?_ (World.getElem_exec hpc false))
    rw [World.exec_eq hpc]
    exact hw

/-- How far the readers are from giving way. -/
def Pc.back : Pc → Nat
  | check => 2
  | sub => 1
  | _ => 0

def World.back (w : World) : Nat := (w.threads.map Pc.back).sum

theorem World.exec_perm {i : Nat} (hpc : w.threads[i]? = some pc) (write : Bool) :
    ∃ rest, w.threads.Perm (pc :: rest) ∧
      (w.exec (i, write)).threads.Perm ((pc.step w.lock write).2 :: rest) := by
  obtain ⟨hlt, rfl⟩ := List.getElem?_eq_some_iff.mp hpc
  rw [World.exec_eq hpc]
  exact ⟨w.threads.eraseIdx i, (List.getElem_cons_eraseIdx_perm hlt).symm,
    List.set_perm_cons_eraseIdx hlt _⟩

/-- A writer that waits comes in, once the readers that are counted have given way. -/
theorem World.writes (h : Kept w.lock w.threads) (hwait : .wait ∈ w.threads) :
    w.Leads World.Held := by
  induction hn : w.back using Nat.strongRecOn generalizing w with
  | _ n ih =>
    have hwrite : w.lock.write ≠ 0 := by
      have hpos : 0 < w.threads.countP Pc.marked := List.countP_pos_iff.mpr ⟨_, hwait, rfl⟩
      rw [h.write]
      omega
    by_cases hr : w.lock.read = 0
    · obtain ⟨i, hi⟩ := List.mem_iff_getElem?.mp hwait
      refine .step (i, false) (.refl ?_)
      exact World.held_of_getElem (World.getElem_exec hi false) (.inr (by simp [Pc.step, hr]))
    · rw [h.read] at hr
      obtain ⟨pc, hmem, hcounted⟩ := List.countP_pos_iff.mp (Nat.pos_of_ne_zero hr)
      obtain ⟨i, hi⟩ := List.mem_iff_getElem?.mp hmem
      obtain ⟨rest, hold, hnew⟩ := World.exec_perm hi false
      have hback : w.back = pc.back + (rest.map Pc.back).sum := by
        rw [World.back, (hold.map _).sum_nat, List.map_cons, List.sum_cons]
      have hback' : (w.exec (i, false)).back =
          (pc.step w.lock false).2.back + (rest.map Pc.back).sum := by
        rw [World.back, (hnew.map _).sum_nat, List.map_cons, List.sum_cons]
      have hrest : pc ≠ .wait → .wait ∈ (w.exec (i, false)).threads := by
        intro hne
        rcases List.mem_cons.mp (hold.mem_iff.mp hwait) with heq | hin
        · exact absurd heq.symm hne
        · exact hnew.mem_iff.mpr (List.mem_cons_of_mem _ hin)
      have hkept := World.exec_kept h (i, false)
      cases pc with
      | check =>
        refine .step (i, false) (ih _ ?_ hkept (hrest (by decide)) rfl)
        rw [← hn, hback, hback']
        simp [Pc.step, hwrite, Pc.back]
      | sub =>
        refine .step (i, false) (ih _ ?_ hkept (hrest (by decide)) rfl)
        rw [← hn, hback, hback']
        simp [Pc.step, Pc.back]
      | reading => exact .refl (World.held_of_getElem hi (.inl rfl))
      | _ => cases hcounted

/-- In every run of any number of threads, at most one writes, and none reads while it does; where
no thread is in the lock it is as in the beginning, and where some are, there are steps by which one
comes to hold it. -/
theorem exclusion (h : Reached n w) :
    w.threads.count .writing ≤ 1 ∧ (.writing ∈ w.threads → .reading ∉ w.threads) ∧
      ((∀ pc ∈ w.threads, pc = .idle) → w.lock = rwlock_init) ∧
      ((∃ pc ∈ w.threads, pc ≠ .idle) → w.Leads World.Held) := by
  have hk := h.kept
  refine ⟨?_, fun hw hr => ?_, fun hidle => ?_, ?_⟩
  · exact Nat.le_trans (count_writing_le _) (hk.write ▸ hk.one)
  · rcases hk.excluded with h0 | h0
    · exact List.count_eq_zero.mp h0 hw
    · exact List.count_eq_zero.mp h0 hr
  · have hread := hk.read
    have hwrite := hk.write
    rw [List.countP_eq_zero.mpr fun pc hpc => by rw [hidle pc hpc]; decide] at hread hwrite
    show (⟨w.lock.write, w.lock.read⟩ : RwLock) = _
    rw [hread, hwrite]
    rfl
  · rintro ⟨pc, hmem, hne⟩
    by_cases hwait : .wait ∈ w.threads
    · exact World.writes hk hwait
    by_cases hheld : w.Held
    · exact .refl hheld
    obtain ⟨i, hi⟩ := List.mem_iff_getElem?.mp hmem
    have hwrite : w.lock.write = 0 := by
      rw [hk.write, List.countP_eq_zero]
      intro pc hpc hmarked
      cases pc with
      | wait => exact hwait hpc
      | writing => exact hheld (.inr hpc)
      | _ => cases hmarked
    cases pc with
    | idle => exact absurd rfl hne
    | rlock => exact World.reads hwrite hi (by simp)
    | add => exact World.reads hwrite hi (by simp)
    | check => exact World.reads hwrite hi (by simp)
    | sub => exact World.reads hwrite hi (by simp)
    | wlock =>
      refine .step (i, false) (World.writes (World.exec_kept hk _) ?_)
      refine List.mem_of_getElem? (World.getElem_exec hi false) |> fun hmem => ?_
      simpa [Pc.step, hwrite] using hmem
    | wait => exact absurd hmem hwait
    | reading => exact absurd (.inl hmem) hheld
    | writing => exact absurd (.inr hmem) hheld

/-- A reader that has counted itself gives way to a writer. -/
theorem exclusion_sample :
    let w := [(0, false), (0, false), (0, false), (1, true), (1, false), (0, false)].foldl
      World.exec (World.new 2)
    w.threads = [.sub, .wait] ∧ w.threads.count .writing ≤ 1 ∧ w.Leads World.Held := by
  have hr : Reached 2 _ := Machine.Reach.init.run
    [(0, false), (0, false), (0, false), (1, true), (1, false), (0, false)]
    ⟨trivial, trivial, trivial, trivial, trivial, trivial, trivial⟩
  exact ⟨rfl, (exclusion hr).1, (exclusion hr).2.2.2 ⟨.sub, .head _, by decide⟩⟩

end SkynetHotfix.Skynet.Lock
