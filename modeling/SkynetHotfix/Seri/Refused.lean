import SkynetHotfix.Seri.RoundTrip

/-!
# What comes of any bytes

Every byte that is read is spent, so `luaseri_unpack` comes to an end on all bytes: with values that
Lua can hold, and that go through a message again, or with one of its errors (`unpack_ends`).
-/

namespace SkynetHotfix.Seri

open Codes LittleEndian

/-- The errors of `luaseri_unpack`. -/
def Refused (e : Fault) : Prop :=
  Invalid e ∨ e = .error "memory allocation error: block too big" ∨
    e = .error "table index is NaN" ∨ e = .error "stack overflow"

/-- Reads at least `k` bytes, or refuses them. -/
abbrev Spends {α : Type} (k : Nat) (Good : α → Prop) (r : Unpacker α) (s : List UInt8) : Prop :=
  Codes.Spends k Good Refused r s

variable {s : List UInt8}

theorem spends_invalid {α : Type} {k line : Nat} {Good : α → Prop} :
    Spends k Good (invalid_stream line) s :=
  .of_error rfl (.inl ⟨_, _, rfl⟩)

theorem spends_read {sz line : Nat} : Spends sz (fun _ => True) (rbReadOr sz line) s := by
  by_cases h : s.length < sz
  · have hread : rb_read sz s = .ok (none, s) := by rw [rb_read, if_pos h]
    refine .of_error ?_ (.inl ⟨s.length, line, rfl⟩)
    rw [rbReadOr, bind_ok hread]
    rfl
  · have hread : rb_read sz s = .ok (some (s.take sz), s.drop sz) := by rw [rb_read, if_neg h]
    have hle : (s.drop sz).length + sz ≤ s.length := by
      rw [List.length_drop]
      omega
    refine .of_ok (a := s.take sz) ?_ trivial hle
    rw [rbReadOr, bind_ok hread]
    rfl

theorem spends_integer (cookie : Nat) : Spends 0 (fun _ => True) (get_integer cookie) s := by
  unfold get_integer
  split
  · exact .pure trivial
  · exact (spends_read.bind_pure fun _ _ => trivial).le (by decide)
  · exact (spends_read.bind_pure fun _ _ => trivial).le (by decide)
  · exact (spends_read.bind_pure fun _ _ => trivial).le (by decide)
  · exact (spends_read.bind_pure fun _ _ => trivial).le (by decide)
  · exact spends_invalid

theorem spends_real : Spends 8 (fun _ => True) get_real s :=
  spends_read.bind_pure fun _ _ => trivial

theorem spends_pointer : Spends 8 (fun _ => True) get_pointer s :=
  spends_read.bind_pure fun _ _ => trivial

theorem spends_buffer (len : Nat) : Spends 0 (fun _ => True) (get_buffer len) s := by
  unfold get_buffer
  split
  · exact spends_read.le (Nat.zero_le _)
  · exact .of_error rfl (.inr (.inl rfl))

theorem spends_size (n : Nat) : Spends 0 (fun _ => True) (unpackSize n) s := by
  unfold unpackSize
  split
  · refine (spends_read.bind (j := 0) fun t s' _ _ => ?_).le (by decide)
    dsimp only
    split
    · exact spends_invalid
    · exact (spends_integer _).bind_pure fun _ _ => trivial
  · exact .pure trivial

theorem spends_checkstack (top : Nat) : Spends 0 (fun _ => True) (luaL_checkstack top) s := by
  unfold luaL_checkstack
  split
  · exact .of_error rfl (.inr (.inr (.inr rfl)))
  · exact .pure trivial

theorem spends_pairs {one : Nat → Unpacker Value} {top n : Nat}
    (h : ∀ s', s'.length ≤ s.length → ∀ top, Spends 1 (·.keyed) (one top) s')
    (hn : s.length < n) : Spends 0 (keyedHash ·) (unpackPairs one top n) s := by
  induction n generalizing s with
  | zero => omega
  | succ n ih =>
    rw [unpackPairs]
    refine ((h s (Nat.le_refl _) top).bind (j := 0) fun k s₁ hk hs₁ => ?_).le (by decide)
    split
    · exact .pure (by rw [keyedHash])
    next hnil =>
    refine ((h s₁ (by omega) (top + 1)).bind (j := 0) fun v s₂ hv hs₂ => ?_).le (by decide)
    split
    · exact .of_error rfl (.inr (.inr (.inl rfl)))
    next hnan =>
    refine (ih (fun s' hs' => h s' (by omega)) (by omega)).bind_pure fun hash hhash => ?_
    simp only [keyedHash, keyedPair, Bool.and_eq_true, Bool.not_eq_true']
    exact
      ⟨⟨⟨⟨eq_false_of_ne_true hnil, eq_false_of_ne_true hnan⟩, hk⟩, hv⟩, hhash⟩

theorem keyedArray_of_mem {array : List Value} (h : ∀ v ∈ array, v.keyed) :
    keyedArray array := by
  induction array with
  | nil => rw [keyedArray]
  | cons v array ih =>
    rw [keyedArray, Bool.and_eq_true]
    exact ⟨h v (.head _), ih fun w hw => h w (.tail _ hw)⟩

theorem spends_table {one : Nat → Unpacker Value} {n top size : Nat}
    (h : ∀ s', s'.length ≤ s.length → ∀ top, Spends 1 (·.keyed) (one top) s')
    (hn : s.length < n) : Spends 0 (·.keyed) (unpack_table one n top size) s := by
  unfold unpack_table
  refine (spends_size size).bind (j := 0) fun i s₀ _ hs₀ => ?_
  refine (spends_checkstack top).bind (j := 0) fun _ s₁ _ hs₁ => ?_
  have htimes := Codes.Spends.times (s := s₁) i.toNat fun s' hs' =>
    (h s' (by omega) (top + 1)).le (Nat.zero_le 1)
  refine htimes.bind (j := 0) fun array s₂ harray hs₂ => ?_
  refine (spends_pairs (fun s' hs' => h s' (by omega)) (by omega : s₂.length < n)).bind_pure
    fun hash hhash => ?_
  rw [Value.keyed.eq_def, Bool.and_eq_true]
  exact ⟨keyedArray_of_mem harray, hhash⟩

theorem spends_string (len : Nat) : Spends 0 (·.keyed) (do
    let s ← get_buffer len
    pure (Value.string s)) s :=
  (spends_buffer len).bind_pure fun _ _ => by rw [Value.keyed.eq_def]

theorem spends_value {table : Nat → Unpacker Value} {type cookie : Nat}
    (h : Spends 0 (·.keyed) (table cookie) s) :
    Spends 0 (·.keyed) (push_value table type cookie) s := by
  unfold push_value
  split
  · exact .pure (by rw [Value.keyed.eq_def])
  · exact .pure (by rw [Value.keyed.eq_def])
  · split
    · exact (spends_real.bind_pure fun _ _ => by rw [Value.keyed.eq_def]).le (Nat.zero_le 8)
    · exact (spends_integer cookie).bind_pure fun _ _ => by rw [Value.keyed.eq_def]
  · exact (spends_pointer.bind_pure fun _ _ => by rw [Value.keyed.eq_def]).le (Nat.zero_le 8)
  · exact spends_string cookie
  · split
    · exact (spends_read.bind (j := 0) fun _ _ _ _ => spends_string _).le (by decide)
    · split
      · exact spends_invalid
      · exact (spends_read.bind (j := 0) fun _ _ _ _ => spends_string _).le (by decide)
  · exact h
  · exact spends_invalid

theorem spends_one {n : Nat} (hn : s.length < n) (top : Nat) :
    Spends 1 (·.keyed) (unpack_one n top) s := by
  induction n generalizing s top with
  | zero => omega
  | succ n ih =>
    rw [unpack_one]
    refine spends_read.bind (j := 0) fun t s₁ _ hs₁ => spends_value ?_
    exact spends_table (fun s' hs' => ih (by omega)) (by omega)

theorem spends_all {top n i : Nat} (hn : s.length < n) :
    Spends 0 (fun vs => vs.length ≤ s.length ∧ ∀ v ∈ vs, v.keyed) (unpackAll top n i) s := by
  induction n generalizing s i with
  | zero => omega
  | succ n ih =>
    by_cases hcheck : i % 8 = 7 → luaL_checkstack (top + i) = pure ()
    · by_cases hnil : s = []
      · subst hnil
        exact .of_ok (unpackAll_nil hcheck n)
          ⟨Nat.le_refl _, fun v hv => absurd hv List.not_mem_nil⟩ (Nat.le_refl _)
      · rw [Spends, Codes.Spends, unpackAll_succ hnil hcheck]
        refine ((spends_one hn (top + i)).bind (j := 0) fun v s₁ hv hs₁ => ?_).le (by decide)
        refine (ih (by omega)).bind_pure fun vs hvs => ⟨?_, List.forall_mem_cons.mpr ⟨hv, hvs.2⟩⟩
        rw [List.length_cons]
        omega
    -- the stack overflows
    · obtain ⟨hi, hfull⟩ := Classical.not_imp.mp hcheck
      refine .of_error (e := .error "stack overflow") ?_ (.inr (.inr (.inr rfl)))
      rw [unpackAll, if_pos hi]
      refine bind_error ?_
      unfold luaL_checkstack at hfull ⊢
      split at hfull
      next hlt =>
        rw [if_pos hlt]
        rfl
      next => exact absurd rfl hfull

/-- Any bytes come to values, at most one a byte, or to an error; and what the values are packed as,
where they can be packed, is unpacked to them. -/
theorem unpack_ends {buffer : List UInt8} (top : Nat) (h : buffer.length < 2 ^ 31) :
    (∃ vs, luaseri_unpack top buffer = .ok vs ∧ vs.length ≤ buffer.length ∧
      ∀ buffer' top', luaseri_pack vs = .ok buffer' → RoomFor top' vs.length →
        luaseri_unpack top' buffer' = .ok vs) ∨
    ∃ e, Refused e ∧ luaseri_unpack top buffer = .error e := by
  have hall := @spends_all buffer top (2147483647 + 1) 0 h
  rw [luaseri_unpack_eq, StateT.run']
  rw [Spends, Codes.Spends] at hall
  cases hr : unpackAll top (2147483647 + 1) 0 buffer with
  | error e =>
    rw [hr] at hall
    exact .inr ⟨e, hall, rfl⟩
  | ok p =>
    obtain ⟨vs, s⟩ := p
    rw [hr] at hall
    refine .inl ⟨vs, rfl, hall.1.1, fun buffer' top' hpack hroom => ?_⟩
    obtain ⟨cs, hcs, rfl, hlen⟩ := coded_of_pack hpack
    exact unpack_whole hcs hall.1.2 hlen hroom

/-- A key that is NaN. -/
def nanBuffer : List UInt8 := [6, 66, 0, 0, 0, 0, 0, 0, 248, 255, 0, 0]

theorem unpack_ends_sample :
    luaseri_unpack 2 nanBuffer = .error (.error "table index is NaN") ∧
      ∃ e, Refused e ∧ luaseri_unpack 2 nanBuffer = .error e := by
  have herror : luaseri_unpack 2 nanBuffer = .error (.error "table index is NaN") := rfl
  refine ⟨herror, (unpack_ends 2 (by decide)).resolve_left ?_⟩
  rintro ⟨vs, hvs, -⟩
  rw [herror] at hvs
  cases hvs

end SkynetHotfix.Seri
