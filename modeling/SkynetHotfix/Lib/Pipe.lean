import Mathlib.Data.List.TakeWhile

/-!
# Streams and their lines

A pipe is one direction of a connection: what is written is in flight until the network delivers
it, in pieces of any size, and a reader takes the lines that are there. What is written comes out
in order (`all_write`, `all_deliver`), and so a line that is read is the first one written that is
left (`readline_all`), however it came, and once all is delivered it can be read
(`exists_readline`).
-/

structure Pipe (β : Type) where
  /-- what the network has -/
  flight : List β
  /-- what the reader has -/
  got : List β

namespace Pipe

variable {β : Type}

def empty : Pipe β := ⟨[], []⟩

def write (p : Pipe β) (bs : List β) : Pipe β := { p with flight := p.flight ++ bs }

def deliver (p : Pipe β) (n : Nat) : Pipe β := ⟨p.flight.drop n, p.got ++ p.flight.take n⟩

/-- The first line that ends with `sep`, without it. -/
def readline [DecidableEq β] (sep : β) (p : Pipe β) : Option (List β × Pipe β) :=
  if sep ∈ p.got then
    some (p.got.takeWhile (· ≠ sep), { p with got := (p.got.dropWhile (· ≠ sep)).tail })
  else none

/-- What is not read yet. -/
def all (p : Pipe β) : List β := p.got ++ p.flight

@[simp] theorem all_empty : (empty : Pipe β).all = [] := rfl

@[simp] theorem all_write (p : Pipe β) (bs : List β) : (p.write bs).all = p.all ++ bs := by
  simp [all, write]

@[simp] theorem all_deliver (p : Pipe β) (n : Nat) : (p.deliver n).all = p.all := by
  simp [all, deliver]

theorem length_got_le (p : Pipe β) : p.got.length ≤ p.all.length := by
  simp [all]

variable {p p' : Pipe β}

theorem deliver_cases (p : Pipe β) (n : Nat) :
    p.deliver n = p ∨ (p.deliver n).flight.length < p.flight.length := by
  cases n with
  | zero => exact .inl (by simp [deliver])
  | succ n =>
    cases hflight : p.flight with
    | nil =>
      obtain ⟨flight, got⟩ := p
      obtain rfl : flight = [] := hflight
      exact .inl (by simp [deliver])
    | cons b bs =>
      right
      simp only [deliver, hflight, List.drop_succ_cons, List.length_drop, List.length_cons]
      omega

theorem deliver_ne {n : Nat} (h : p.flight ≠ []) (hn : 0 < n) : p.deliver n ≠ p := by
  intro heq
  have hlen : (p.flight.drop n).length = p.flight.length := congrArg (fun q => q.flight.length) heq
  rw [List.length_drop] at hlen
  have hpos := List.length_pos_iff.mpr h
  omega

variable [DecidableEq β] {sep : β} {line line' rest : List β}

theorem takeWhile_line (hsep : sep ∉ line) (rest : List β) :
    (line ++ sep :: rest).takeWhile (· ≠ sep) = line := by
  rw [List.takeWhile_append_of_pos (by grind)]
  simp

theorem tail_dropWhile_line (hsep : sep ∉ line) (rest : List β) :
    ((line ++ sep :: rest).dropWhile (· ≠ sep)).tail = rest := by
  rw [List.dropWhile_append_of_pos (by grind)]
  simp

theorem readline_all (hsep : sep ∉ line) (hall : p.all = line ++ sep :: rest)
    (h : p.readline sep = some (line', p')) : line' = line ∧ p'.all = rest := by
  unfold readline at h
  split at h
  · rename_i hmem
    obtain ⟨rfl, rfl⟩ := Prod.mk.inj (Option.some.inj h)
    obtain ⟨front, back, hgot, hfront⟩ := List.eq_append_cons_of_mem hmem
    have hboth : front ++ sep :: (back ++ p.flight) = line ++ sep :: rest := by
      rw [← hall, all, hgot, List.append_assoc, List.cons_append]
    have hline : front = line := by
      rw [← takeWhile_line hfront (back ++ p.flight), hboth, takeWhile_line hsep]
    rw [hline] at hboth
    have hrest : back ++ p.flight = rest :=
      (List.cons.inj (List.append_cancel_left hboth)).2
    rw [all, hgot, takeWhile_line hfront, tail_dropWhile_line hfront]
    exact ⟨hline, hrest⟩
  · cases h

/-- No line can be read of nothing. -/
theorem readline_empty (hall : p.all = []) : p.readline sep = none := by
  have hgot : p.got = [] := (List.append_eq_nil_iff.mp hall).1
  simp [readline, hgot]

/-- While there is a line, the network has something to deliver or the line can be read. -/
theorem exists_readline (hall : sep ∈ p.all) : p.flight ≠ [] ∨ ∃ r, p.readline sep = some r := by
  by_cases hflight : p.flight = []
  · have hmem : sep ∈ p.got := by simpa [all, hflight] using hall
    exact .inr ⟨_, if_pos hmem⟩
  · exact .inl hflight

end Pipe
