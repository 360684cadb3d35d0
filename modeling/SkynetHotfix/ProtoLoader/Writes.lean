import SkynetHotfix.Lib.Last
import SkynetHotfix.ProtoLoader.Basic

/-!
# Message tables: what the parser's loops write

Each loop of `parserMessagePackage` is read as a list: what it writes to
`message_map` and `message_name_map` and which commands it adds, in order
(`Does`). Where the parser returns, the tables hold what was written last, and
it returns just when no command comes up twice (`parserMessagePackage_does`).
-/

namespace SkynetHotfix.ProtoLoader

open Function (update)
open Last

variable {α : Type}

/-! ## What the parser writes -/

abbrev Pos := Int × Int

/-- A position of `message_map`, with the message put there or `none` for `''`. -/
abbrev Write := Pos × Option String

def write (package : Package) (first_enum_name : String) (main_cmd_id : Int)
    (entry : Sigma fun _ : String => Int) : Option Write :=
  if first_enum_name ≠ entry.1 then
    some ((main_cmd_id, entry.2),
      if messageName entry.1 ∈ package.message_type then some (messageName entry.1) else none)
  else none

def enumWrites (package : Package) (enum : Sigma fun _ : String => Enum) : List Write :=
  if isMsgType enum.1 ∧ enum.1 ≠ "MainMsgType" then
    match enum.2.main with
    | none => []
    | some (first_enum_name, main_cmd_id) =>
      enum.2.values.entries.filterMap (write package first_enum_name main_cmd_id)
  else []

def Package.writes (package : Package) : List Write :=
  package.enum_type.entries.flatMap (enumWrites package)

/-- The commands of an enum. -/
def enumCmds (enum : Sigma fun _ : String => Enum) : List (Sigma fun _ : String => Int) :=
  if isMsgType enum.1 then
    enum.2.values.entries.filter fun entry => enum.2.first ≠ some entry.1
  else []

def Package.cmds (package : Package) : List (Sigma fun _ : String => Int) :=
  package.enum_type.entries.flatMap enumCmds

/-- What a write leaves in `message_map[main_id][sub_id]`. -/
def atPos (pos : Pos) (w : Write) : Option String := if w.1 = pos then some (w.2.getD "") else none

/-- What a write leaves in `message_name_map[name]`. -/
def named (name : String) (w : Write) : Option Pos := if w.2 = some name then some w.1 else none

/-- The tables hold what was written last, and the commands. -/
structure Tracks (m : Maps) (W : List Write) (N : List (Sigma fun _ : String => Int)) : Prop where
  message : ∀ main_id sub_id, m.message main_id sub_id = last (atPos (main_id, sub_id)) W
  name : ∀ name, m.message_name_map name = last (named name) W
  cmd : ∀ name value, m.message_cmd name = some value ↔ ⟨name, value⟩ ∈ N
  nodup : N.NodupKeys

theorem tracks_empty : Tracks Maps.empty [] [] where
  message _ _ := rfl
  name _ := rfl
  cmd _ _ := by simp [Maps.empty]
  nodup := List.nodupKeys_nil

/-- A part of the parser that writes `W` and adds the commands `N`, or raises because one of them
is there already. -/
def Does (run : Maps → Option Maps) (W : List Write) (N : List (Sigma fun _ : String => Int)) :
    Prop :=
  ∀ m W₀ N₀, Tracks m W₀ N₀ →
    (∀ m', run m = some m' → Tracks m' (W₀ ++ W) (N₀ ++ N)) ∧
      ((N₀ ++ N).NodupKeys → (run m).isSome)

theorem Does.foldlM {f : Maps → α → Option Maps} {w : α → List Write}
    {n : α → List (Sigma fun _ : String => Int)} {l : List α}
    (hf : ∀ a ∈ l, Does (f · a) (w a) (n a)) :
    Does (fun m => l.foldlM f m) (l.flatMap w) (l.flatMap n) := by
  induction l with
  | nil =>
    intro m W₀ N₀ h
    simpa using h
  | cons a l ih =>
    intro m W₀ N₀ h
    obtain ⟨ht, hs⟩ := hf a List.mem_cons_self m W₀ N₀ h
    have ih := ih fun b hb => hf b (List.mem_cons_of_mem _ hb)
    simp only [List.foldlM_cons, List.flatMap_cons, ← List.append_assoc]
    cases hm : f m a with
    | none =>
      refine ⟨by simp, fun hn => ?_⟩
      have hn' : (N₀ ++ n a).NodupKeys := hn.sublist (List.sublist_append_left _ _)
      simpa [hm] using hs hn'
    | some m₁ => exact ih m₁ _ _ (ht m₁ hm)

/-! ## Each loop -/

namespace Maps

@[simp] theorem put_message (m : Maps) (main_id sub_id : Int) (message_name : String)
    (main_id' sub_id' : Int) :
    (m.put main_id sub_id message_name).message main_id' sub_id' =
      if (main_id, sub_id) = (main_id', sub_id') then some message_name
      else m.message main_id' sub_id' := by
  unfold put message
  by_cases h : main_id' = main_id
  · subst h
    by_cases hs : sub_id' = sub_id
    · simp [hs]
    · have hs' : ¬ sub_id = sub_id' := fun e => hs e.symm
      cases hm : m.message_map main_id' <;> simp [hs, hs']
  · have h' : ¬ main_id = main_id' := fun e => h e.symm
    simp [h, h']

@[simp] theorem put_message_name_map (m : Maps) (main_id sub_id : Int) (message_name : String) :
    (m.put main_id sub_id message_name).message_name_map = m.message_name_map := rfl

@[simp] theorem put_message_cmd (m : Maps) (main_id sub_id : Int) (message_name : String) :
    (m.put main_id sub_id message_name).message_cmd = m.message_cmd := rfl

end Maps

theorem Tracks.write {m m' : Maps} {W : List Write} {N : List (Sigma fun _ : String => Int)}
    (h : Tracks m W N) (w : Write)
    (hm : ∀ main_id sub_id, m'.message main_id sub_id =
      (atPos (main_id, sub_id) w).or (m.message main_id sub_id))
    (hn : ∀ name, m'.message_name_map name = (named name w).or (m.message_name_map name))
    (hc : m'.message_cmd = m.message_cmd) : Tracks m' (W ++ [w]) N where
  message main_id sub_id := by rw [hm, h.message, last_append, last_singleton]
  name name := by rw [hn, h.name, last_append, last_singleton]
  cmd name value := by rw [hc, h.cmd]
  nodup := h.nodup

theorem addMessage_tracks {m : Maps} {W : List Write} {N : List (Sigma fun _ : String => Int)}
    (h : Tracks m W N) (package : Package) (first_enum_name : String) (main_cmd_id : Int)
    (entry : Sigma fun _ : String => Int) :
    Tracks (addMessage package first_enum_name main_cmd_id m entry)
      (W ++ (write package first_enum_name main_cmd_id entry).toList) N := by
  unfold addMessage write
  by_cases hf : first_enum_name ≠ entry.1
  · simp only [if_pos hf, Option.toList_some]
    by_cases hm : messageName entry.1 ∈ package.message_type
    · rw [if_pos hm]
      refine h.write _ (fun a b => ?_) (fun n => ?_) rfl
      · show (m.put _ _ _).message a b = _
        rw [Maps.put_message]
        by_cases hp : (main_cmd_id, entry.2) = (a, b)
        · simp only [atPos, if_pos hp, if_pos hm, Option.getD_some, Option.some_or]
        · simp only [atPos, if_neg hp, Option.none_or]
      · show update m.message_name_map _ _ n = _
        by_cases hn : n = messageName entry.1
        · simp [named, hn, hm]
        · have hn' : ¬ messageName entry.1 = n := fun e => hn e.symm
          simp [named, hn, hn']
    · rw [if_neg hm]
      refine h.write _ (fun a b => ?_) (fun n => ?_) rfl
      · rw [Maps.put_message]
        by_cases hp : (main_cmd_id, entry.2) = (a, b)
        · simp only [atPos, if_pos hp, if_neg hm, Option.getD_none, Option.some_or]
        · simp only [atPos, if_neg hp, Option.none_or]
      · simp only [named, if_neg hm, Maps.put_message_name_map, reduceCtorEq, if_false,
          Option.none_or]
  · rw [if_neg hf, if_neg hf]
    simpa using h

theorem addMessages_tracks {m : Maps} {W : List Write} {N : List (Sigma fun _ : String => Int)}
    (h : Tracks m W N) (package : Package) (first_enum_name : String) (main_cmd_id : Int)
    (l : List (Sigma fun _ : String => Int)) :
    Tracks (l.foldl (addMessage package first_enum_name main_cmd_id) m)
      (W ++ l.filterMap (write package first_enum_name main_cmd_id)) N := by
  induction l generalizing m W with
  | nil => simpa using h
  | cons entry l ih =>
    have := ih (addMessage_tracks h package first_enum_name main_cmd_id entry)
    cases hw : write package first_enum_name main_cmd_id entry <;>
      simpa [List.filterMap_cons, hw] using this

theorem addCmd_does (first_enum_name : Option String) (entry : Sigma fun _ : String => Int) :
    Does (addCmd first_enum_name · entry) []
      (if first_enum_name ≠ some entry.1 then [entry] else []) := by
  intro m W N h
  unfold addCmd
  by_cases hf : first_enum_name = some entry.1
  · simpa [hf] using h
  · simp only [if_neg hf, if_pos hf, ne_eq, List.append_nil]
    cases hc : m.message_cmd entry.1 with
    | some value =>
      refine ⟨by simp, fun hn => ?_⟩
      have hmem := (h.cmd entry.1 value).mp hc
      rw [List.NodupKeys, List.keys, List.map_append] at hn
      exact absurd rfl ((List.nodup_append.mp hn).2.2 entry.1
        (List.mem_keys.mpr ⟨value, hmem⟩) entry.1 (by simp))
    | none =>
      refine ⟨fun m' hm' => ?_, fun _ => rfl⟩
      obtain rfl := Option.some.inj hm'
      have hnot : entry.1 ∉ N.keys := by
        intro hk
        obtain ⟨v, hv⟩ := List.exists_of_mem_keys hk
        simp [(h.cmd _ _).mpr hv] at hc
      refine ⟨h.message, h.name, fun n v => ?_, ?_⟩
      · show update m.message_cmd entry.1 (some entry.2) n = some v ↔ _
        by_cases hn : n = entry.1
        · subst hn
          have hno : (⟨entry.1, v⟩ : Sigma fun _ : String => Int) ∉ N :=
            fun hm => hnot (List.mem_keys.mpr ⟨v, hm⟩)
          simp [hno, Sigma.ext_iff, eq_comm]
        · simp [hn, h.cmd, Sigma.ext_iff]
      · rw [List.NodupKeys, List.keys, List.map_append, List.nodup_append]
        refine ⟨h.nodup, by simp, fun a ha b hb => ?_⟩
        rintro rfl
        obtain rfl : a = entry.1 := by simpa using hb
        exact hnot ha

theorem addCmds_does (first_enum_name : Option String) (l : List (Sigma fun _ : String => Int)) :
    Does (fun m => l.foldlM (addCmd first_enum_name) m) []
      (l.filter fun entry => first_enum_name ≠ some entry.1) := by
  have hn : (l.flatMap fun entry => if first_enum_name ≠ some entry.1 then [entry] else []) =
      l.filter fun entry => first_enum_name ≠ some entry.1 := by
    induction l with
    | nil => rfl
    | cons entry l ih =>
      rw [List.flatMap_cons, ih]
      by_cases he : first_enum_name = some entry.1 <;> simp [he]
  have hw : l.flatMap (fun _ => ([] : List Write)) = [] := by simp
  have := Does.foldlM (l := l) fun entry _ => addCmd_does first_enum_name entry
  rwa [hw, hn] at this

theorem Tracks.sub {m : Maps} {W : List Write} {N : List (Sigma fun _ : String => Int)}
    (h : Tracks m W N) (main_cmd_id : Int) :
    Tracks { m with
      message_map := update m.message_map main_cmd_id
        (some ((m.message_map main_cmd_id).getD fun _ => none)) } W N where
  message a b := by
    rw [← h.message]
    show (update m.message_map _ _ a).bind _ = (m.message_map a).bind _
    by_cases ha : a = main_cmd_id
    · subst ha
      cases hm : m.message_map a <;> simp
    · simp [ha]
  name := h.name
  cmd := h.cmd
  nodup := h.nodup

theorem addEnum_does (package : Package) (enum : Sigma fun _ : String => Enum) :
    Does (addEnum package · enum) (enumWrites package enum) (enumCmds enum) := by
  intro m W N h
  by_cases ht : isMsgType enum.1
  · have key : ∀ m₁, Tracks m₁ (W ++ enumWrites package enum) N →
        (∀ m', enum.2.values.entries.foldlM (addCmd enum.2.first) m₁ = some m' →
          Tracks m' (W ++ enumWrites package enum) (N ++ enumCmds enum)) ∧
        ((N ++ enumCmds enum).NodupKeys →
          (enum.2.values.entries.foldlM (addCmd enum.2.first) m₁).isSome) := by
      intro m₁ h₁
      have := addCmds_does enum.2.first enum.2.values.entries m₁ _ _ h₁
      rw [List.append_nil] at this
      simpa [enumCmds, ht] using this
    simp only [addEnum, if_pos ht]
    refine key _ ?_
    by_cases hn : enum.1 ≠ "MainMsgType"
    · rw [if_pos hn, enumWrites, if_pos ⟨ht, hn⟩]
      cases hm : enum.2.main with
      | none => simpa using h
      | some p => exact addMessages_tracks (h.sub p.2) package p.1 p.2 _
    · rw [if_neg hn, enumWrites, if_neg (fun h => hn h.2)]
      simpa using h
  · simpa [addEnum, enumWrites, enumCmds, ht] using h

/-- The parser as a whole. -/
theorem parserMessagePackage_does (message_package : List (List Package)) :
    (∀ r, parserMessagePackage message_package = some r →
      Tracks r (message_package.flatten.flatMap Package.writes)
        (message_package.flatten.flatMap Package.cmds)) ∧
    ((message_package.flatten.flatMap Package.cmds).NodupKeys →
      (parserMessagePackage message_package).isSome) :=
  Does.foldlM (fun package _ => Does.foldlM fun enum _ => addEnum_does package enum)
    Maps.empty [] [] tracks_empty

end SkynetHotfix.ProtoLoader
