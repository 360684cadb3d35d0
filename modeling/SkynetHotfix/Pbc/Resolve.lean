import SkynetHotfix.Pbc.Parser

/-!
# Resolving names

A name resolves in a scope if the scope or one around it has it (`Found`), and
then `_match_name` finds it. So a message whose names resolve is fixed
(`fix_message_ok`). An `extend` outside of a message is not: `_fix_extension`
is given the package without the `.` that all full names begin with
(`extend_fails`).
-/

namespace SkynetHotfix.Pbc

open Function (update)
open ProtoLoader (ProtoValue)

variable {all : Names} {n ns s : String}

/-! ## Scopes -/

/-- The scopes around a scope. -/
inductive Encloses : String → String → Prop
  | refl {ns : String} : Encloses ns ns
  | step {ns ns' s : String} : outer ns = some ns' → Encloses ns' s → Encloses ns s

/-- A name that a scope has, or one around it. -/
def Found (all : Names) (ns n : String) : Prop :=
  isFull n = true ∨ ∃ s, Encloses ns s ∧ (all (s ++ "." ++ n)).isSome

theorem outer_eq {ns' : String} (h : outer ns = some ns') :
    ∃ word, ns.toList = ns'.toList ++ '.' :: word := by
  rw [outer] at h
  have hsplit := List.takeWhile_append_dropWhile (p := isWord) (l := ns.toList.reverse)
  generalize ns.toList.reverse.takeWhile isWord = word at *
  generalize ns.toList.reverse.dropWhile isWord = rest at *
  split at h
  · rename_i rest
    split at h
    · cases h
    · cases h
      refine ⟨word.reverse, ?_⟩
      rw [← List.reverse_reverse ns.toList, ← hsplit]
      simp
  · cases h

theorem length_outer {ns' : String} (h : outer ns = some ns') : ns'.length < ns.length := by
  obtain ⟨word, hw⟩ := outer_eq h
  rw [← String.length_toList, ← String.length_toList, hw, List.length_append, List.length_cons]
  omega

theorem matchLoop_isSome (h : Encloses ns s) (hs : (all (s ++ "." ++ n)).isSome) :
    ∀ fuel, ns.length ≤ fuel → (matchLoop all n fuel ns).isSome := by
  induction h with
  | refl =>
    intro fuel _
    cases fuel <;> rw [matchLoop, if_pos hs] <;> rfl
  | step houter _ ih =>
    intro fuel hfuel
    have hlt := length_outer houter
    cases fuel with
    | zero => omega
    | succ fuel =>
      rw [matchLoop]
      split
      · rfl
      · rw [houter]
        exact ih hs fuel (by omega)

theorem match_name_ok (h : Found all ns n) : ∃ full, match_name (some ns) n all = .ok full := by
  rw [match_name]
  rcases h with hfull | ⟨s, hs, hall⟩
  · exact ⟨n, if_pos hfull⟩
  · split
    · exact ⟨n, rfl⟩
    · obtain ⟨full, hmatch⟩ := Option.isSome_iff_exists.mp
        (matchLoop_isSome hs hall ns.length (Nat.le_refl _))
      rw [hmatch]
      exact ⟨full, rfl⟩

/-! ## Messages -/

/-- The type of a field resolves, if it is not an internal one. -/
def TypeFound (all : Names) (ns : String) (field : Field) : Prop :=
  ∀ type_name ∈ field.type_name, Found all ns type_name

/-- An extension: the message it extends and its type resolve. -/
def ExtensionFound (all : Names) (ns : String) (field : Field) : Prop :=
  Found all ns (field.extendee.getD "") ∧ TypeFound all ns field

mutual

/-- The names in a message resolve in its own scope. -/
def Resolves (all : Names) (ns : String) : MessageType → Prop
  | ⟨name, field, nested_type, _, extension, _⟩ =>
    (∀ f ∈ field.getD [], TypeFound all (fullname ns name) f) ∧
      ResolveAll all (fullname ns name) nested_type ∧
      ∀ f ∈ extension, ExtensionFound all (fullname ns name) f

def ResolveAll (all : Names) (ns : String) : List MessageType → Prop
  | [] => True
  | msg :: msgs => Resolves all ns msg ∧ ResolveAll all ns msgs

end

theorem resolveAll_iff {l : List MessageType} : ResolveAll all ns l ↔ ∀ m ∈ l, Resolves all ns m := by
  induction l with
  | nil => exact ⟨fun _ _ h => absurd h List.not_mem_nil, fun _ => trivial⟩
  | cons m l ih => rw [ResolveAll, ih, List.forall_mem_cons]

/-- A message with fields only. -/
theorem resolves_fields {m : MessageType} (hn : m.nested_type = []) (he : m.extension = [])
    (h : ∀ f ∈ m.field.getD [], TypeFound all (fullname ns m.name) f) : Resolves all ns m := by
  cases m
  cases hn
  cases he
  rw [Resolves]
  exact ⟨h, trivial, fun _ hf => absurd hf List.not_mem_nil⟩

theorem mapM_ok {α β γ : Type} {f : α → Result β} {g : α → γ} {k : β → γ} {l : List α}
    (h : ∀ a ∈ l, ∃ b, f a = .ok b ∧ k b = g a) : ∃ l', l.mapM f = .ok l' ∧ l'.map k = l.map g := by
  induction l with
  | nil => exact ⟨[], rfl, rfl⟩
  | cons a l ih =>
    obtain ⟨⟨b, hb, hg⟩, h⟩ := List.forall_mem_cons.mp h
    obtain ⟨l', hl', hmap⟩ := ih h
    refine ⟨b :: l', ?_, by rw [List.map_cons, List.map_cons, hg, hmap]⟩
    rw [List.mapM_cons, hb, hl']
    rfl

theorem forall_of_mapM {α β : Type} {f : α → Result β} {l : List α} {l' : List β}
    (h : l.mapM f = .ok l') : ∀ a ∈ l, ∃ b, f a = .ok b := by
  induction l generalizing l' with
  | nil => exact fun a ha => absurd ha List.not_mem_nil
  | cons a l ih =>
    rw [List.mapM_cons] at h
    obtain ⟨b, hb, h⟩ := Fuel.bind_eq_ok.mp h
    obtain ⟨l'', hl, -⟩ := Fuel.bind_eq_ok.mp h
    exact List.forall_mem_cons.mpr ⟨⟨b, hb⟩, ih hl⟩

theorem fixOptions_proto (field : Field) : (fixOptions field).proto = field.proto := by
  rw [fixOptions]
  split <;> rfl

theorem fix_field_ok {field : Field} (h : TypeFound all ns field) :
    ∃ field', fix_field (some ns) all field = .ok field' := by
  rw [fix_field]
  split
  · exact ⟨field, rfl⟩
  · rename_i type_name htype
    split
    · exact ⟨_, rfl⟩
    · obtain ⟨full, hfull⟩ := match_name_ok (h type_name htype)
      rw [hfull]
      exact ⟨_, rfl⟩

theorem fix_field_proto {ns : Option String} {field field' : Field}
    (h : fix_field ns all field = .ok field') : field'.proto = field.proto := by
  rw [fix_field] at h
  split at h
  · cases h
    rfl
  · split at h
    · cases h
      rfl
    · obtain ⟨full, -, h⟩ := Fuel.bind_eq_ok.mp h
      cases h
      exact fixOptions_proto _

theorem fixExtendee_ok {field : Field} (h : ExtensionFound all ns field) :
    ∃ field', fixExtendee (some ns) all field = .ok field' := by
  obtain ⟨full, hfull⟩ := match_name_ok h.1
  rw [fixExtendee, hfull]
  exact fix_field_ok h.2

/-- What is read of a message besides its types. -/
def MessageType.plain (m : MessageType) : String × Option (List ProtoValue) :=
  (m.name, m.field.map fun l => l.map Field.proto)

theorem fixFields_ok {field : Option (List Field)} (h : ∀ f ∈ field.getD [], TypeFound all ns f) :
    ∃ field', fixFields ns all field = .ok field' ∧
      field'.map (fun l => l.map Field.proto) = field.map fun l => l.map Field.proto := by
  cases field with
  | none => exact ⟨none, rfl, rfl⟩
  | some l =>
    obtain ⟨l', hl, hp⟩ := mapM_ok (f := fix_field (some ns) all) (g := Field.proto)
      (k := Field.proto) (l := l) fun f hf => by
        obtain ⟨f', hf'⟩ := fix_field_ok (h f hf)
        exact ⟨f', hf', fix_field_proto hf'⟩
    exact ⟨some l', by rw [fixFields, hl]; rfl, congrArg some hp⟩

mutual

theorem fix_message_ok : ∀ (m : MessageType) (ns : String), Resolves all ns m →
    ∃ m', fix_message ns all m = .ok m' ∧ m'.plain = m.plain
  | ⟨name, field, nested_type, enum_type, extension, extension_range⟩, ns, h => by
    rw [Resolves] at h
    obtain ⟨hfield, hnested, hext⟩ := h
    obtain ⟨nested', hn, -⟩ := fixMessages_ok nested_type _ hnested
    obtain ⟨ext', he, -⟩ := mapM_ok (f := fixExtendee (some (fullname ns name)) all)
      (g := fun _ => ()) (k := fun _ => ()) fun f hf => by
        obtain ⟨f', hf'⟩ := fixExtendee_ok (hext f hf)
        exact ⟨f', hf', rfl⟩
    obtain ⟨field', hf, hp⟩ := fixFields_ok hfield
    refine ⟨⟨name, field', nested', enum_type, ext', extension_range⟩, ?_, Prod.ext rfl hp⟩
    rw [fix_message, hf, hn, fix_extension, he]
    rfl

theorem fixMessages_ok : ∀ (l : List MessageType) (ns : String), ResolveAll all ns l →
    ∃ l', fixMessages ns all l = .ok l' ∧
      l'.map MessageType.plain = l.map MessageType.plain
  | [], _, _ => ⟨[], rfl, rfl⟩
  | m :: l, ns, h => by
    rw [ResolveAll] at h
    obtain ⟨m', hm, hp⟩ := fix_message_ok m ns h.1
    obtain ⟨l', hl, hps⟩ := fixMessages_ok l ns h.2
    exact ⟨m' :: l', by rw [fixMessages, hm, hl]; rfl, by rw [List.map_cons, List.map_cons, hp, hps]⟩

end

/-! ## Extensions of a file -/

/-- All names that are known begin with a `.`. -/
def FullNames (all : Names) : Prop := ∀ name, (all name).isSome → isFull name = true

/-- What `_gen_fullname` puts before names. -/
def Prefix (ns : String) : Prop := ns = "" ∨ isFull ns = true

theorem isFull_append {a b : String} (h : isFull a = true) : isFull (a ++ b) = true := by
  rw [isFull, beq_iff_eq] at h ⊢
  rw [String.toList_append, List.head?_append, h]
  rfl

theorem isFull_fullname (h : Prefix ns) (name : String) : isFull (fullname ns name) = true := by
  rw [fullname]
  split
  · assumption
  · rcases h with rfl | h
    · rw [isFull, String.toList_append, String.toList_append]
      rfl
    · exact isFull_append (isFull_append h)

theorem FullNames.update (h : FullNames all) (hns : Prefix ns) (name : String) (type : FieldType) :
    FullNames (update all (fullname ns name) (some type)) := by
  intro k hk
  by_cases hname : k = fullname ns name
  · rw [hname]
    exact isFull_fullname hns name
  · rw [Function.update_of_ne hname] at hk
    exact h k hk

theorem FullNames.enums (hns : Prefix ns) (l : List ProtoLoader.ProtoEnum) :
    ∀ {all : Names}, FullNames all → FullNames (l.foldl (enum_fullname ns) all) := by
  induction l with
  | nil => exact fun h => h
  | cons enum l ih => exact fun h => ih (h.update hns enum.name _)

mutual

theorem FullNames.message : ∀ (m : MessageType) {ns : String} {all : Names}, Prefix ns →
    FullNames all → FullNames (message_fullname ns all m)
  | ⟨name, _, nested_type, enum_type, _, _⟩, ns, all, hns, h => by
    have hfull : Prefix (fullname ns name) := .inr (isFull_fullname hns name)
    rw [message_fullname]
    exact FullNames.enums hfull enum_type
      (FullNames.messages nested_type hfull (h.update hns name _))

theorem FullNames.messages : ∀ (l : List MessageType) {ns : String} {all : Names}, Prefix ns →
    FullNames all → FullNames (messageFullnames ns all l)
  | [], _, _, _, h => h
  | m :: l, _, _, hns, h => by
    rw [messageFullnames]
    exact FullNames.messages l hns (FullNames.message m hns h)

end

theorem FullNames.gen (h : FullNames all) (file : File) : FullNames (gen_fullname all file) := by
  have hns : Prefix (file.package.elim "" fun package => "." ++ package.val) := by
    cases file.package with
    | none => exact .inl rfl
    | some package =>
      refine .inr (isFull_append ?_)
      decide
  exact FullNames.enums hns _ (FullNames.messages _ hns h)

theorem Typename.head (t : Typename) : ∃ c, t.val.toList.head? = some c ∧ c ≠ '.' := by
  have h := t.grammar
  cases hl : t.val.toList with
  | nil =>
    rw [hl] at h
    cases h
  | cons c cs =>
    refine ⟨c, rfl, ?_⟩
    rintro rfl
    rw [hl] at h
    cases h

theorem isFull_of_head {c : Char} (hc : ns.toList.head? = some c) (hne : c ≠ '.') (a : String) :
    isFull (ns ++ a) = false := by
  rw [isFull, String.toList_append, List.head?_append, hc, beq_eq_false_iff_ne]
  exact fun he => hne (Option.some.inj he)

/-- No scope around a package without the `.` has a name. -/
theorem matchLoop_none (h : FullNames all) (n : String) (fuel : Nat) : ∀ {ns : String} {c : Char},
    ns.toList.head? = some c → c ≠ '.' → matchLoop all n fuel ns = none := by
  have hno : ∀ {ns : String} {c : Char}, ns.toList.head? = some c → c ≠ '.' →
      ¬ (all (ns ++ "." ++ n)).isSome := by
    intro ns c hc hne hsome
    have hfull := h _ hsome
    rw [String.append_assoc, isFull_of_head hc hne] at hfull
    cases hfull
  induction fuel with
  | zero =>
    intro ns c hc hne
    rw [matchLoop, if_neg (hno hc hne)]
  | succ fuel ih =>
    intro ns c hc hne
    rw [matchLoop, if_neg (hno hc hne)]
    cases houter : outer ns with
    | none => rfl
    | some ns' =>
      obtain ⟨word, hw⟩ := outer_eq houter
      have hhead : ns'.toList.head? = some c := by
        rw [hw, List.head?_append] at hc
        cases hh : ns'.toList.head? with
        | none =>
          rw [hh] at hc
          exact absurd (Option.some.inj hc).symm hne
        | some c' =>
          rw [hh] at hc
          exact hc
      exact ih hhead hne

/-- An `extend` of a file, whatever it extends. -/
theorem extend_fails (package : Option Typename) (h : FullNames all) {field : Field}
    {t : Typename} (ht : field.extendee = some t.val) :
    ∃ e, fixExtendee (package.map Typename.val) all field = .error e := by
  obtain ⟨c, hc, hne⟩ := t.head
  have hfull : ¬ isFull t.val = true := by
    have hfull := isFull_of_head hc hne ""
    rw [String.append_empty] at hfull
    rw [hfull]
    decide
  have hmatch : ∃ e, match_name (package.map Typename.val) t.val all = .error e := by
    cases package with
    | none => exact ⟨_, if_neg hfull⟩
    | some package =>
      obtain ⟨c', hc', hne'⟩ := package.head
      rw [Option.map_some, match_name, if_neg hfull, matchLoop_none h t.val _ hc' hne']
      exact ⟨_, rfl⟩
  obtain ⟨e, he⟩ := hmatch
  rw [fixExtendee, ht, Option.getD_some, he]
  exact ⟨e, rfl⟩

end SkynetHotfix.Pbc
