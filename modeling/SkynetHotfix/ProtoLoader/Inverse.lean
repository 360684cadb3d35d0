import Mathlib.Data.List.Forall2
import SkynetHotfix.ProtoLoader.Writes

/-!
# Message tables: when they are inverse to each other

`message_map` and `message_name_map` are filled by separate assignments, so an
entry that comes to a position or to a name a second time replaces what one of
the tables holds and not the other (`main_id_overwrites`). They are inverse to
each other and the same in whatever order `pairs` meets enums and entries just
when the packages are `Clear`: no package holds entries in conflict that no
later package covers (`maps_inverse`).
-/

namespace SkynetHotfix.ProtoLoader

open Last

variable {α β : Type}

/-! ## The same packages in another order -/

/-- The same enum, its entries met in another order. -/
structure EnumMet (enum enum' : Sigma fun _ : String => Enum) : Prop where
  name : enum.1 = enum'.1
  first : enum.2.first = enum'.2.first
  values : enum.2.values.entries.Perm enum'.2.values.entries

/-- The same package, its enums and their entries met in another order. -/
structure Package.Met (p p' : Package) : Prop where
  package : p.package = p'.package
  message_type : p.message_type = p'.message_type
  enum_type : ∃ l, List.Forall₂ EnumMet p.enum_type.entries l ∧ l.Perm p'.enum_type.entries

/-- The packages, in the order of `ipairs`, as `pairs` may meet what is in them. -/
abbrev Met : List (List Package) → List (List Package) → Prop :=
  List.Forall₂ (List.Forall₂ Package.Met)

theorem EnumMet.refl (enum : Sigma fun _ : String => Enum) : EnumMet enum enum :=
  ⟨rfl, rfl, .refl _⟩

theorem Package.Met.refl (package : Package) : package.Met package :=
  ⟨rfl, rfl, _, List.forall₂_same.mpr fun enum _ => .refl enum, .refl _⟩

theorem EnumMet.main {enum enum' : Sigma fun _ : String => Enum} (h : EnumMet enum enum') :
    enum.2.main = enum'.2.main := by
  unfold Enum.main
  rw [h.first]
  simp only [AList.perm_lookup h.values]

theorem EnumMet.writes {enum enum' : Sigma fun _ : String => Enum} (h : EnumMet enum enum')
    {package package' : Package} (hp : package.message_type = package'.message_type) :
    (enumWrites package enum).Perm (enumWrites package' enum') := by
  have hw : write package = write package' := by
    unfold write
    rw [hp]
  unfold enumWrites
  rw [h.main, h.name, hw]
  split
  · split
    · exact .refl _
    · exact h.values.filterMap _
  · exact .refl _

theorem EnumMet.cmds {enum enum' : Sigma fun _ : String => Enum} (h : EnumMet enum enum') :
    (enumCmds enum).Perm (enumCmds enum') := by
  unfold enumCmds
  rw [h.name, h.first]
  split
  · exact h.values.filter _
  · exact .refl _

theorem flatMap_perm {R : α → α → Prop} {f g : α → List β} {l l' : List α}
    (h : List.Forall₂ R l l') (hf : ∀ a a', R a a' → (f a).Perm (g a')) :
    (l.flatMap f).Perm (l'.flatMap g) := by
  induction h with
  | nil => exact .refl _
  | cons ha _ ih => exact (hf _ _ ha).append ih

theorem Package.Met.writes {package package' : Package} (h : package.Met package') :
    package.writes.Perm package'.writes := by
  obtain ⟨l, hl, hp⟩ := h.enum_type
  exact (flatMap_perm hl fun _ _ he => he.writes h.message_type).trans (hp.flatMap_right _)

theorem Package.Met.cmds {package package' : Package} (h : package.Met package') :
    package.cmds.Perm package'.cmds := by
  obtain ⟨l, hl, hp⟩ := h.enum_type
  exact (flatMap_perm hl fun _ _ he => he.cmds).trans (hp.flatMap_right _)

theorem Met.flatten {message_package message_package' : List (List Package)}
    (h : Met message_package message_package') :
    List.Forall₂ Package.Met message_package.flatten message_package'.flatten :=
  List.rel_flatten h

/-- Whether the parser raises does not depend on the order. -/
theorem Met.accepted {message_package message_package' : List (List Package)}
    (h : Met message_package message_package')
    (ha : (parserMessagePackage message_package).isSome) :
    (parserMessagePackage message_package').isSome := by
  obtain ⟨r, hr⟩ := Option.isSome_iff_exists.mp ha
  have ht := (parserMessagePackage_does message_package).1 r hr
  refine (parserMessagePackage_does message_package').2 ?_
  exact (List.perm_nodupKeys (flatMap_perm h.flatten fun _ _ hp => hp.cmds)).mp ht.nodup

/-! ## A package with one write at the end -/

theorem exists_perm_last {l : List α} {a : α} (h : a ∈ l) : ∃ l', l.Perm (l' ++ [a]) := by
  obtain ⟨s, t, rfl⟩ := List.append_of_mem h
  exact ⟨s ++ t, List.perm_middle.trans (List.perm_append_singleton a (s ++ t)).symm⟩

/-- The same enum with the entry of a write met last. -/
theorem EnumMet.exists_last {package : Package} {enum : Sigma fun _ : String => Enum} {w : Write}
    (hw : w ∈ enumWrites package enum) :
    ∃ enum' W, EnumMet enum enum' ∧ enumWrites package enum' = W ++ [w] := by
  by_cases ht : isMsgType enum.1 ∧ enum.1 ≠ "MainMsgType"
  · cases hm : enum.2.main with
    | none => simp [enumWrites, ht, hm] at hw
    | some p =>
      rw [enumWrites, if_pos ht, hm] at hw
      obtain ⟨entry, he, hew⟩ := List.mem_filterMap.mp hw
      obtain ⟨l, hl⟩ := exists_perm_last he
      have hk : ∀ name, name ∈ enum.2.values → name ∈ (l ++ [entry]).keys := fun name hn =>
        (hl.map Sigma.fst).mem_iff.mp hn
      let enum' : Sigma fun _ : String => Enum := ⟨enum.1,
        { first := enum.2.first
          values := ⟨l ++ [entry], (List.perm_nodupKeys hl).mp enum.2.values.nodupKeys⟩
          first_mem := fun name hn => hk name (enum.2.first_mem name hn) }⟩
      have hmet : EnumMet enum enum' := ⟨rfl, rfl, hl⟩
      refine ⟨enum', l.filterMap (write package p.1 p.2), hmet, ?_⟩
      rw [enumWrites, if_pos ht, ← hmet.main, hm]
      show (l ++ [entry]).filterMap (write package p.1 p.2) = _
      simp [List.filterMap_append, hew]
  · rw [enumWrites, if_neg ht] at hw
    simp at hw

/-- The same package with a write made last. -/
theorem Package.Met.exists_last {package : Package} {w : Write} (hw : w ∈ package.writes) :
    ∃ package' W, package.Met package' ∧ package'.writes = W ++ [w] := by
  obtain ⟨enum, he, hwe⟩ := List.mem_flatMap.mp hw
  obtain ⟨enum', W, hmet, hW⟩ := EnumMet.exists_last hwe
  obtain ⟨s, t, hst⟩ := List.append_of_mem he
  have hmet' : List.Forall₂ EnumMet package.enum_type.entries (s ++ enum' :: t) := by
    rw [hst]
    exact List.rel_append (List.forall₂_same.mpr fun e _ => .refl e)
      (.cons hmet (List.forall₂_same.mpr fun e _ => .refl e))
  have hp : (s ++ enum' :: t).Perm (s ++ t ++ [enum']) :=
    List.perm_middle.trans (List.perm_append_singleton enum' (s ++ t)).symm
  have hkeys : (s ++ t ++ [enum']).NodupKeys := by
    rw [← List.perm_nodupKeys hp]
    have hk : (s ++ enum' :: t).keys = package.enum_type.entries.keys := by
      rw [hst]
      simp [List.keys, hmet.name]
    rw [List.NodupKeys, hk]
    exact package.enum_type.nodupKeys
  refine ⟨{ package with enum_type := ⟨s ++ t ++ [enum'], hkeys⟩ },
    (s ++ t).flatMap (enumWrites package) ++ W, ⟨rfl, rfl, _, hmet', hp⟩, ?_⟩
  show (s ++ t ++ [enum']).flatMap (enumWrites package) = _
  rw [List.flatMap_append, List.flatMap_singleton, hW, List.append_assoc]

theorem Met.refl (message_package : List (List Package)) : Met message_package message_package :=
  List.forall₂_same.mpr fun _ _ => List.forall₂_same.mpr fun p _ => .refl p

theorem Met.replace {message_package : List (List Package)} {P₁ P₂ : List Package}
    {package package' : Package} (h : message_package.flatten = P₁ ++ package :: P₂)
    (hp : package.Met package') :
    ∃ message_package', Met message_package message_package' ∧
      message_package'.flatten = P₁ ++ package' :: P₂ := by
  induction message_package generalizing P₁ with
  | nil => simp at h
  | cons ps message_package ih =>
    have hps : List.Forall₂ Package.Met ps ps := List.forall₂_same.mpr fun p _ => .refl p
    -- the package is in a later list, in a later list at its start, or in this one
    have later : ∀ Q, P₁ = ps ++ Q → message_package.flatten = Q ++ package :: P₂ →
        ∃ message_package', Met (ps :: message_package) message_package' ∧
          message_package'.flatten = P₁ ++ package' :: P₂ := by
      intro Q hQ hf
      obtain ⟨l, hl, hlf⟩ := ih hf
      exact ⟨ps :: l, .cons hps hl, by rw [List.flatten_cons, hlf, hQ, List.append_assoc]⟩
    rw [List.flatten_cons] at h
    rcases List.append_eq_append_iff.mp h with ⟨Q, hQ, hf⟩ | ⟨Q, hQ, hf⟩
    · exact later Q hQ hf
    · cases Q with
      | nil => exact later [] (by simpa using hQ.symm) hf.symm
      | cons p Q =>
        obtain ⟨rfl, rfl⟩ := List.cons.inj hf
        have hsame : ∀ l, List.Forall₂ Package.Met l l := fun l =>
          List.forall₂_same.mpr fun p _ => .refl p
        refine ⟨(P₁ ++ package' :: Q) :: message_package, .cons ?_ (Met.refl _), by simp⟩
        rw [hQ]
        exact List.rel_append (hsame P₁) (.cons hp (hsame Q))

/-! ## Inverse tables -/

/-- `message_name_map[name] = (main_id, sub_id)` exactly when
`message_map[main_id][sub_id] = name` with `name` not empty. -/
def Inverse (m : Maps) : Prop :=
  ∀ name main_id sub_id, m.message_name_map name = some (main_id, sub_id) ↔
    m.message main_id sub_id = some name ∧ name ≠ ""

structure Same (m m' : Maps) : Prop where
  message : ∀ main_id sub_id, m.message main_id sub_id = m'.message main_id sub_id
  message_name_map : m.message_name_map = m'.message_name_map
  message_cmd : m.message_cmd = m'.message_cmd

/-- The entries of a package, before those of the later ones: where one stands for a message, the
message has a name, later ones have its position just when they have its name, and if they have
neither, the package itself has nothing else at the position nor elsewhere for the name. -/
def ClearAt (W later : List Write) : Prop :=
  ∀ pos name, (pos, some name) ∈ W → name ≠ "" ∧
    ((∃ w ∈ later, w.1 = pos) ↔ ∃ w ∈ later, w.2 = some name) ∧
    ((∀ w ∈ later, w.1 ≠ pos) → ∀ w ∈ W, w.1 = pos ↔ w.2 = some name)

/-- No package holds entries in conflict that no later package covers. -/
def Clear (Ws : List (List Write)) : Prop :=
  ∀ W₁ W W₂, Ws = W₁ ++ W :: W₂ → ClearAt W W₂.flatten

theorem clear_cons {W : List Write} {Ws : List (List Write)} :
    Clear (W :: Ws) ↔ ClearAt W Ws.flatten ∧ Clear Ws := by
  constructor
  · exact fun h => ⟨h [] W Ws rfl, fun W₁ W' W₂ hW => h (W :: W₁) W' W₂ (by rw [hW]; rfl)⟩
  · intro h W₁ W' W₂ hW
    cases W₁ with
    | nil =>
      obtain ⟨rfl, rfl⟩ := List.cons.inj hW
      exact h.1
    | cons W₀ W₁ => exact h.2 W₁ W' W₂ (List.cons.inj hW).2

theorem atPos_eq_some {pos : Pos} {w : Write} {s : String} :
    atPos pos w = some s ↔ w.1 = pos ∧ w.2.getD "" = s := by
  simp [atPos]

theorem named_eq_some {name : String} {w : Write} {pos : Pos} :
    named name w = some pos ↔ w.2 = some name ∧ w.1 = pos := by
  simp [named]

theorem last_atPos_eq_none {pos : Pos} {R : List Write} :
    last (atPos pos) R = none ↔ ∀ w ∈ R, w.1 ≠ pos := by
  simp [last_eq_none, atPos]

theorem last_named_eq_none {name : String} {R : List Write} :
    last (named name) R = none ↔ ∀ w ∈ R, w.2 ≠ some name := by
  simp [last_eq_none, named]

namespace ClearAt

variable {W R : List Write} {pos : Pos} {name : String}

/-- Later packages have the position and the name of a message, or neither. -/
theorem later_iff (h : ClearAt W R) (hw : (pos, some name) ∈ W) :
    last (atPos pos) R = none ↔ last (named name) R = none := by
  have := (h pos name hw).2.1
  rw [last_atPos_eq_none, last_named_eq_none]
  constructor
  · intro hp w hwR hn
    obtain ⟨w', hw', he⟩ := this.mpr ⟨w, hwR, hn⟩
    exact hp w' hw' he
  · intro hn w hwR hp
    obtain ⟨w', hw', he⟩ := this.mp ⟨w, hwR, hp⟩
    exact hn w' hw' he

theorem only (h : ClearAt W R) (hw : (pos, some name) ∈ W) (hR : last (atPos pos) R = none) :
    ∀ w ∈ W, w.1 = pos ↔ w.2 = some name :=
  (h pos name hw).2.2 (last_atPos_eq_none.mp hR)

theorem last_atPos (h : ClearAt W R) (hw : (pos, some name) ∈ W)
    (hR : last (atPos pos) R = none) : last (atPos pos) W = some name := by
  refine last_eq_some hw (by simp [atPos]) fun w hwW s hs => ?_
  obtain ⟨hwp, rfl⟩ := atPos_eq_some.mp hs
  rw [(h.only hw hR w hwW).mp hwp, Option.getD_some]

theorem last_named (h : ClearAt W R) (hw : (pos, some name) ∈ W)
    (hR : last (atPos pos) R = none) : last (named name) W = some pos := by
  refine last_eq_some hw (by simp [named]) fun w hwW p hp => ?_
  obtain ⟨hwn, rfl⟩ := named_eq_some.mp hp
  exact (h.only hw hR w hwW).mpr hwn

/-- What a package leaves at a position that no later one has does not depend on the order. -/
theorem atPos_perm (h : ClearAt W R) {W' : List Write} (hW : W.Perm W')
    (hR : last (atPos pos) R = none) : last (atPos pos) W = last (atPos pos) W' := by
  refine last_perm hW fun w hw w' hw' s s' hs hs' => ?_
  obtain ⟨hwp, rfl⟩ := atPos_eq_some.mp hs
  obtain ⟨hwp', rfl⟩ := atPos_eq_some.mp hs'
  have same : ∀ w₁ ∈ W, ∀ w₂ ∈ W, w₁.1 = pos → w₂.1 = pos → ∀ n, w₁.2 = some n → w₂.2 = some n := by
    rintro ⟨p, v⟩ h₁ w₂ h₂ rfl hp₂ n rfl
    exact (h.only h₁ hR w₂ h₂).mp hp₂
  cases hv : w.2 with
  | some n => rw [same w hw w' hw' hwp hwp' n hv]
  | none =>
    cases hv' : w'.2 with
    | none => rfl
    | some n => rw [same w' hw' w hw hwp' hwp n hv'] at hv; cases hv

/-- What a package leaves for a name that no later one has does not depend on the order. -/
theorem named_perm (h : ClearAt W R) {W' : List Write} (hW : W.Perm W')
    (hR : last (named name) R = none) : last (named name) W = last (named name) W' := by
  refine last_perm hW fun w hw w' hw' p p' hp hp' => ?_
  obtain ⟨hwn, rfl⟩ := named_eq_some.mp hp
  obtain ⟨hwn', rfl⟩ := named_eq_some.mp hp'
  have hmem : (w.1, some name) ∈ W := by rwa [← hwn]
  exact ((h.only hmem ((h.later_iff hmem).mpr hR) w' hw').mpr hwn').symm

/-- If the later packages leave inverse tables, so does the package before them. -/
theorem inverse (h : ClearAt W R)
    (hR : ∀ pos name, last (named name) R = some pos ↔
      last (atPos pos) R = some name ∧ name ≠ "") (pos : Pos) (name : String) :
    last (named name) (W ++ R) = some pos ↔
      last (atPos pos) (W ++ R) = some name ∧ name ≠ "" := by
  rw [last_append, last_append]
  constructor
  · intro hl
    cases hn : last (named name) R with
    | some p =>
      rw [hn, Option.some_or] at hl
      rw [hl] at hn
      obtain ⟨hp, he⟩ := (hR pos name).mp hn
      rw [hp]
      exact ⟨rfl, he⟩
    | none =>
      rw [hn, Option.none_or] at hl
      obtain ⟨w, hw, hwl⟩ := exists_of_last hl
      obtain ⟨hwn, rfl⟩ := named_eq_some.mp hwl
      have hmem : (w.1, some name) ∈ W := by rwa [← hwn]
      have hp := (h.later_iff hmem).mpr hn
      rw [hp, h.last_atPos hmem hp]
      exact ⟨rfl, (h _ _ hmem).1⟩
  · rintro ⟨hl, he⟩
    cases hp : last (atPos pos) R with
    | some s =>
      rw [hp, Option.some_or] at hl
      rw [hl] at hp
      rw [(hR pos name).mpr ⟨hp, he⟩]
      rfl
    | none =>
      rw [hp, Option.none_or] at hl
      obtain ⟨w, hw, hwl⟩ := exists_of_last hl
      obtain ⟨rfl, hwn⟩ := atPos_eq_some.mp hwl
      have hmem : (w.1, some name) ∈ W := by
        cases hv : w.2 with
        | none => rw [hv] at hwn; exact absurd hwn.symm he
        | some n =>
          rw [hv, Option.getD_some] at hwn
          rwa [← hwn, ← hv]
      rw [(h.later_iff hmem).mp hp, h.last_named hmem hp]
      rfl

end ClearAt

/-- In packages that are clear the order within a package does not matter, and the tables are
inverse to each other: a position or a name that a later package has is the later one's. -/
theorem Clear.inverse {Ws Ws' : List (List Write)} (hp : List.Forall₂ List.Perm Ws Ws')
    (hc : Clear Ws) :
    (∀ pos, last (atPos pos) Ws.flatten = last (atPos pos) Ws'.flatten) ∧
    (∀ name, last (named name) Ws.flatten = last (named name) Ws'.flatten) ∧
    ∀ pos name, last (named name) Ws.flatten = some pos ↔
      last (atPos pos) Ws.flatten = some name ∧ name ≠ "" := by
  induction hp with
  | nil => simp
  | cons hW _ ih =>
    obtain ⟨hat, hcs⟩ := clear_cons.mp hc
    obtain ⟨ihp, ihn, ihi⟩ := ih hcs
    refine ⟨fun pos => ?_, fun name => ?_, hat.inverse ihi⟩
    · simp only [List.flatten_cons, last_append, ← ihp]
      cases hR : last (atPos pos) _ with
      | some s => rfl
      | none => rw [Option.none_or, Option.none_or, hat.atPos_perm hW hR]
    · simp only [List.flatten_cons, last_append, ← ihn]
      cases hR : last (named name) _ with
      | some p => rfl
      | none => rw [Option.none_or, Option.none_or, hat.named_perm hW hR]

/-! ## The tables of a clear set, and of one that is not -/

variable {message_package message_package' : List (List Package)} {r r' : Maps}

theorem Inverse.of_writes {W : List Write} {N : List (Sigma fun _ : String => Int)}
    (h : Tracks r W N) (hi : ∀ pos name, last (named name) W = some pos ↔
      last (atPos pos) W = some name ∧ name ≠ "") : Inverse r := by
  intro name main_id sub_id
  rw [h.name, h.message]
  exact hi (main_id, sub_id) name

theorem Same.of_tracks {W W' : List Write} {N N' : List (Sigma fun _ : String => Int)}
    (h : Tracks r W N) (h' : Tracks r' W' N') (hp : ∀ pos, last (atPos pos) W = last (atPos pos) W')
    (hn : ∀ name, last (named name) W = last (named name) W') (hN : N.Perm N') : Same r r' where
  message main_id sub_id := by rw [h.message, h'.message, hp]
  message_name_map := by
    funext name
    rw [h.name, h'.name, hn]
  message_cmd := by
    funext name
    refine Option.ext fun value => ?_
    rw [h.cmd, h'.cmd, hN.mem_iff]

theorem inverse_of_clear (h : parserMessagePackage message_package = some r)
    (hc : Clear (message_package.flatten.map Package.writes))
    (hm : Met message_package message_package') :
    ∃ r', parserMessagePackage message_package' = some r' ∧ Inverse r' ∧ Same r r' := by
  obtain ⟨r', hr'⟩ := Option.isSome_iff_exists.mp (hm.accepted (by rw [h]; rfl))
  have ht := (parserMessagePackage_does message_package).1 r h
  have ht' := (parserMessagePackage_does message_package').1 r' hr'
  have hW : List.Forall₂ List.Perm (message_package.flatten.map Package.writes)
      (message_package'.flatten.map Package.writes) := by
    rw [List.forall₂_map_left_iff, List.forall₂_map_right_iff]
    exact hm.flatten.imp fun _ _ hp => hp.writes
  obtain ⟨hp, hn, hi⟩ := hc.inverse hW
  rw [← List.flatMap_def, ← List.flatMap_def] at hp hn
  rw [← List.flatMap_def] at hi
  refine ⟨r', hr', Inverse.of_writes ht' fun pos name => ?_, Same.of_tracks ht ht' hp hn
    (flatMap_perm hm.flatten fun _ _ hp => hp.cmds)⟩
  rw [← hp, ← hn]
  exact hi pos name

/-- The tables hold what `w` and the writes after it leave. -/
structure Ends (r : Maps) (w : Write) (later : List Write) : Prop where
  message : ∀ main_id sub_id s, last (atPos (main_id, sub_id)) (w :: later) = some s →
    r.message main_id sub_id = some s
  name : ∀ name pos, last (named name) (w :: later) = some pos → r.message_name_map name = some pos

/-- Any write of a package can be its last. -/
theorem exists_met_last (h : parserMessagePackage message_package = some r) {P₁ P₂ : List Package}
    {package : Package} (hP : message_package.flatten = P₁ ++ package :: P₂) {w : Write}
    (hw : w ∈ package.writes) :
    ∃ message_package' r', Met message_package message_package' ∧
      parserMessagePackage message_package' = some r' ∧ Ends r' w (P₂.flatMap Package.writes) := by
  obtain ⟨package', W, hmet, hW⟩ := Package.Met.exists_last hw
  obtain ⟨message_package', hm, hf⟩ := Met.replace hP hmet
  obtain ⟨r', hr'⟩ := Option.isSome_iff_exists.mp (hm.accepted (by rw [h]; rfl))
  have ht := (parserMessagePackage_does message_package').1 r' hr'
  have hwr : message_package'.flatten.flatMap Package.writes =
      P₁.flatMap Package.writes ++ W ++ w :: P₂.flatMap Package.writes := by
    rw [hf, List.flatMap_append, List.flatMap_cons, hW]
    simp
  rw [hwr] at ht
  refine ⟨message_package', r', hm, hr', fun a b s hs => ?_, fun name pos hp => ?_⟩
  · rw [ht.message, last_append, hs, Option.some_or]
  · rw [ht.name, last_append, hp, Option.some_or]

/-- A write that is not `''` where a message of the name is found. -/
theorem eq_some_of_getD {w : Write} {name : String} (hne : name ≠ "") (hw : w.2.getD "" = name) :
    w.2 = some name := by
  cases hv : w.2 with
  | none =>
    rw [hv] at hw
    exact absurd hw.symm hne
  | some n =>
    rw [hv] at hw
    rw [← hw, Option.getD_some]

theorem Ends.name_ne {pos : Pos} {name : String} {R : List Write} (h : Ends r (pos, some name) R)
    (hi : Inverse r) : name ≠ "" := by
  cases hR : last (named name) R with
  | none =>
    have hn := h.name name pos (by rw [last_cons, hR]; simp [named])
    exact ((hi name pos.1 pos.2).mp hn).2
  | some p =>
    have hn := h.name name p (by rw [last_cons, hR, Option.some_or])
    exact ((hi name p.1 p.2).mp hn).2

theorem Ends.later_iff {pos : Pos} {name : String} {R : List Write}
    (h : Ends r (pos, some name) R) (hi : Inverse r) :
    (∃ w ∈ R, w.1 = pos) ↔ ∃ w ∈ R, w.2 = some name := by
  have hne := h.name_ne hi
  constructor
  · rintro ⟨w, hw, hwp⟩
    cases hp : last (atPos pos) R with
    | none => exact absurd hwp (last_atPos_eq_none.mp hp w hw)
    | some s =>
      by_contra hno
      have hR : last (named name) R = none :=
        last_named_eq_none.mpr fun w' hw' hn => hno ⟨w', hw', hn⟩
      have hn := h.name name pos (by rw [last_cons, hR]; simp [named])
      have hs := h.message pos.1 pos.2 s (by rw [last_cons, hp, Option.some_or])
      obtain rfl : s = name := by
        have := ((hi name pos.1 pos.2).mp hn).1
        rw [hs] at this
        exact Option.some.inj this
      obtain ⟨w', hw', hat⟩ := exists_of_last hp
      exact hno ⟨w', hw', eq_some_of_getD hne (atPos_eq_some.mp hat).2⟩
  · rintro ⟨w, hw, hwn⟩
    cases hp : last (named name) R with
    | none => exact absurd hwn (last_named_eq_none.mp hp w hw)
    | some p =>
      by_contra hno
      have hR : last (atPos pos) R = none :=
        last_atPos_eq_none.mpr fun w' hw' hn => hno ⟨w', hw', hn⟩
      have hm := h.message pos.1 pos.2 name (by rw [last_cons, hR]; simp [atPos])
      have hn := h.name name p (by rw [last_cons, hp, Option.some_or])
      obtain rfl : p = pos := by
        have := (hi name pos.1 pos.2).mpr ⟨hm, hne⟩
        rw [hn] at this
        exact Option.some.inj this
      obtain ⟨w', hw', hat⟩ := exists_of_last hp
      exact hno ⟨w', hw', (named_eq_some.mp hat).2⟩

theorem clear_of_inverse (h : parserMessagePackage message_package = some r)
    (hall : ∀ message_package', Met message_package message_package' →
      ∃ r', parserMessagePackage message_package' = some r' ∧ Inverse r' ∧ Same r r') :
    Clear (message_package.flatten.map Package.writes) := by
  intro W₁ W W₂ hW
  obtain ⟨P₁, Q, hP, rfl, hQ⟩ := List.map_eq_append_iff.mp hW
  obtain ⟨package, P₂, rfl, rfl, rfl⟩ := List.map_eq_cons_iff.mp hQ
  have key : ∀ w ∈ package.writes,
      ∃ r', Inverse r' ∧ Same r r' ∧ Ends r' w (P₂.flatMap Package.writes) := by
    intro w hw
    obtain ⟨mp', r', hm, hr', he⟩ := exists_met_last h hP hw
    obtain ⟨r'', hr'', hi, hs⟩ := hall mp' hm
    obtain rfl : r' = r'' := Option.some.inj (hr'.symm.trans hr'')
    exact ⟨r', hi, hs, he⟩
  rw [← List.flatMap_def]
  generalize P₂.flatMap Package.writes = R at key
  intro pos name hw
  obtain ⟨r₁, hi₁, hs₁, he₁⟩ := key _ hw
  have hne := he₁.name_ne hi₁
  have hlater := he₁.later_iff hi₁
  refine ⟨hne, hlater, fun hp w hwW => ?_⟩
  -- with either write as the last of the package the tables are the same
  obtain ⟨r₂, hi₂, hs₂, he₂⟩ := key w hwW
  have hRp : last (atPos pos) R = none := last_atPos_eq_none.mpr hp
  have hRn : last (named name) R = none := by
    refine last_named_eq_none.mpr fun w' hw' hn => ?_
    obtain ⟨w'', hw'', he⟩ := hlater.mpr ⟨w', hw', hn⟩
    exact hp w'' hw'' he
  constructor
  · rintro rfl
    have h₁ := he₁.message w.1.1 w.1.2 name (by rw [last_cons, hRp]; simp [atPos])
    have h₂ := he₂.message w.1.1 w.1.2 (w.2.getD "") (by rw [last_cons, hRp]; simp [atPos])
    rw [← hs₁.message, hs₂.message, h₂] at h₁
    exact eq_some_of_getD hne (Option.some.inj h₁)
  · intro hn
    have h₁ := he₁.name name pos (by rw [last_cons, hRn]; simp [named])
    have h₂ := he₂.name name w.1 (by rw [last_cons, hRn]; simp [named, hn])
    rw [← hs₁.message_name_map, hs₂.message_name_map, h₂] at h₁
    exact Option.some.inj h₁

/-- The tables of an accepted set of packages are inverse to each other, and the same in whatever
order `pairs` meets the enums of a package and the entries of an enum, just when the set is
clear. -/
theorem maps_inverse (message_package : List (List Package)) (r : Maps)
    (h : parserMessagePackage message_package = some r) :
    (∀ message_package', Met message_package message_package' →
      ∃ r', parserMessagePackage message_package' = some r' ∧ Inverse r' ∧ Same r r') ↔
    Clear (message_package.flatten.map Package.writes) :=
  ⟨clear_of_inverse h, fun hc _ hm => inverse_of_clear h hc hm⟩

/-- A file with the enum of a service, whose main id is `1`, and its messages. -/
def sampleFile (enum main : String) (messages : List (String × String × Int)) : ProtoPackage where
  package := none
  enum_type := some [⟨enum, ⟨main, 1⟩ :: messages.map fun message => ⟨message.1, message.2.2⟩⟩]
  message_type := some (messages.map fun message => ⟨message.2.1, []⟩)

def sampleLogin : ProtoPackage :=
  sampleFile "LoginMsgType" "DMSG_MDM_LOGIN_MSG" [("DLogin", "dLogin", 1), ("DLogout", "dLogout", 2)]

def sampleGame : ProtoPackage :=
  sampleFile "GameMsgType" "DMSG_MDM_GAME_MSG" [("DStart", "dStart", 1)]

theorem maps_inverse_sample :
    ∃ r, parserMessagePackage [parserPackage (some [sampleLogin])] = some r ∧
      ∀ message_package', Met [parserPackage (some [sampleLogin])] message_package' →
        ∃ r', parserMessagePackage message_package' = some r' ∧ Inverse r' ∧ Same r r' := by
  have hs : (parserMessagePackage [parserPackage (some [sampleLogin])]).isSome := by decide +kernel
  obtain ⟨r, hr⟩ := Option.isSome_iff_exists.mp hs
  refine ⟨r, hr, (maps_inverse _ r hr).mpr ?_⟩
  have hW : ([parserPackage (some [sampleLogin])].flatten.map Package.writes) =
      [[((1, 2), some "dLogout"), ((1, 1), some "dLogin")]] := by decide +kernel
  rw [hW, clear_cons]
  refine ⟨fun pos name hw => ?_, fun W₁ W W₂ h => by simp at h⟩
  rcases List.mem_pair.mp hw with hw | hw <;> cases hw <;> simp

/-- Two files that give their service one main id: `dLogin` keeps its position in
`message_name_map`, where `message_map` has `dStart`. -/
theorem main_id_overwrites :
    ∃ message_package r, parserMessagePackage message_package = some r ∧ ¬ Inverse r := by
  have hs : (parserMessagePackage [parserPackage (some [sampleLogin, sampleGame])]).map
      (fun r => (r.message_name_map "dLogin", r.message 1 1)) =
      some (some (1, 1), some "dStart") := by decide +kernel
  obtain ⟨r, hr, hmaps⟩ := Option.map_eq_some_iff.mp hs
  refine ⟨_, r, hr, fun hi => ?_⟩
  obtain ⟨hn, hm⟩ := Prod.mk.inj hmaps
  have := ((hi "dLogin" 1 1).mp hn).1
  rw [hm] at this
  exact absurd this (by decide)

end SkynetHotfix.ProtoLoader
