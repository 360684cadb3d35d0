import SkynetHotfix.Pbc.Resolve

/-!
# What is made of a file

`fix` keeps the names and the fields of the messages of a file
(`message_type_fix`), with `nil` for the fields if there are none, and
`parser_one` raises for such a message (`cacheAll_ok`). A set of files whose
names resolve is described just when none of them has an `extend` outside of a
message (`described_ok`, `extension_of_described`).
-/

namespace SkynetHotfix.Pbc

open ProtoLoader (ProtoValue ProtoEnum fields)

/-! ## Messages -/

/-- A field of a message, with its number. -/
def Item.value : Item → Option ProtoValue
  | .field v => some ⟨v.name, v.number⟩
  | _ => none

/-- A message of a file, with its fields. -/
def Statement.message? : Statement → Option (String × List ProtoValue)
  | .message name items => some (name.val, items.filterMap Item.value)
  | _ => none

def messages (text : List Statement) : List (String × List ProtoValue) :=
  text.filterMap Statement.message?

/-- A list that is made when it gets its first element. -/
def lazily {α : Type} (l : List α) : Option (List α) := if l.isEmpty then none else some l

theorem lazily_getD {α : Type} (l : List α) : (lazily l).getD [] = l := by
  cases l <;> rfl

theorem lazily_snoc {α : Type} (l : List α) (a : α) : lazily (l ++ [a]) = some (l ++ [a]) := by
  cases l <;> rfl

theorem addItems_plain (items : List Item) : ∀ (self : MessageType) (l : List ProtoValue),
    self.plain = (self.name, lazily l) →
    (addItems self items).plain = (self.name, lazily (l ++ items.filterMap Item.value)) := by
  induction items with
  | nil =>
    intro self l h
    rw [List.filterMap_nil, List.append_nil]
    exact h
  | cons item items ih =>
    intro self l h
    rw [addItems]
    cases item with
    | field v =>
      have hplain : (add_nested_message self (.field v)).plain =
          (self.name, lazily (l ++ [⟨v.name, v.number⟩])) := by
        have hl : (self.field.getD []).map Field.proto = l := by
          have hfield : self.field.map (fun l => l.map Field.proto) = lazily l :=
            congrArg Prod.snd h
          rw [← lazily_getD l, ← hfield]
          cases self.field <;> rfl
        rw [lazily_snoc, ← hl, add_nested_message, MessageType.plain]
        dsimp only
        rw [Option.map_some, List.map_append]
        rfl
      have hrest := ih _ _ hplain
      rw [List.append_assoc] at hrest
      exact hrest
    | enum v => exact ih _ l h
    | extensions first last => exact ih _ l h
    | extend v => exact ih _ l h
    | message name items => exact ih _ l h

/-- A message of a file, as `deal` makes it. -/
theorem message_plain (name : Typename) (items : List Item) :
    (addItems (MessageType.new name) items).plain =
      (name.val, lazily (items.filterMap Item.value)) :=
  addItems_plain items (MessageType.new name) [] rfl

/-! ## Files -/

/-- A list of a file to which each statement adds something. -/
theorem foldl_deal {α : Type} {g : File → List α} {w : Statement → List α}
    (h : ∀ file statement, g (deal file statement) = g file ++ w statement)
    (text : List Statement) : ∀ file, g (text.foldl deal file) = g file ++ text.flatMap w := by
  induction text with
  | nil =>
    intro file
    rw [List.foldl_nil, List.flatMap_nil, List.append_nil]
  | cons statement text ih =>
    intro file
    rw [List.foldl_cons, ih, h, List.flatMap_cons, List.append_assoc]

theorem filterMap_eq_flatMap {α β : Type} (f : α → Option β) (l : List α) :
    l.filterMap f = l.flatMap fun a => (f a).toList := by
  induction l with
  | nil => rfl
  | cons a l ih =>
    rw [List.flatMap_cons, ← ih, List.filterMap_cons]
    cases f a <;> rfl

def Statement.enum? : Statement → Option ProtoEnum
  | .enum v => some v.proto
  | _ => none

def enums (text : List Statement) : List ProtoEnum := text.filterMap Statement.enum?

theorem enum_type_fix (filename : String) (text : List Statement) :
    (fix filename text).enum_type = enums text := by
  rw [enums, filterMap_eq_flatMap]
  refine foldl_deal (fun file statement => ?_) text _
  cases statement <;> simp [deal, Statement.enum?]

/-- The messages of a file. -/
theorem message_type_fix (filename : String) (text : List Statement) :
    (fix filename text).message_type.map MessageType.plain =
      (messages text).map fun p => (p.1, lazily p.2) := by
  rw [messages, List.map_filterMap, filterMap_eq_flatMap]
  refine foldl_deal (g := fun file => file.message_type.map MessageType.plain)
    (fun file statement => ?_) text _
  cases statement with
  | message name items =>
    rw [deal, List.map_append, List.map_singleton, message_plain]
    rfl
  | _ => exact (List.append_nil _).symm

def Statement.extension : Statement → List Field
  | .extend v => v.fields
  | _ => []

theorem extension_fix (filename : String) (text : List Statement) :
    (fix filename text).extension = text.flatMap Statement.extension := by
  refine foldl_deal (fun file statement => ?_) text _
  cases statement <;> simp [deal, Statement.extension]

/-- Each `extend` has a field. -/
theorem extension_fix_nil (filename : String) (text : List Statement) :
    (fix filename text).extension = [] ↔ ∀ v, Statement.extend v ∉ text := by
  rw [extension_fix, List.flatMap_eq_nil_iff]
  constructor
  · intro h v hv
    exact v.nonempty (List.map_eq_nil_iff.mp (h _ hv))
  · intro h statement hs
    cases statement with
    | extend v => exact absurd hs (h v)
    | _ => rfl

theorem extendee_fix {filename : String} {text : List Statement} {f : Field}
    (hf : f ∈ (fix filename text).extension) : ∃ t : Typename, f.extendee = some t.val := by
  rw [extension_fix] at hf
  obtain ⟨statement, -, hf⟩ := List.mem_flatMap.mp hf
  cases statement with
  | extend v =>
    obtain ⟨field, -, rfl⟩ := List.mem_map.mp hf
    exact ⟨v.name, rfl⟩
  | _ => cases hf

/-! ## Sets of files -/

/-- `all`, of a set of files. -/
def fileNames (files : List File) : Names := files.foldl gen_fullname fun _ => none

/-- The descriptors of a set of files. -/
def described (files : List File) : Result (List File) :=
  files.mapM (fix_typename (fileNames files))

/-- What `_gen_fullname` puts before the names of a file. -/
def File.scope (file : File) : String := file.package.elim "" fun package => "." ++ package.val

/-- The names in a file resolve: in the scope of their message, or of the file. -/
def FileResolves (all : Names) (file : File) : Prop :=
  ResolveAll all file.scope file.message_type ∧
    ∀ f ∈ file.extension, ExtensionFound all file.scope f

theorem fullNames_files (files : List File) : FullNames (fileNames files) := by
  have key : ∀ (files : List File) (all : Names), FullNames all →
      FullNames (files.foldl gen_fullname all) := by
    intro files
    induction files with
    | nil => exact fun _ h => h
    | cons file files ih => exact fun all h => ih _ (h.gen file)
  exact key files _ fun _ h => absurd h (by decide)

/-- What is read of a file besides its types. -/
def File.plain (file : File) :
    Option Typename × List ProtoEnum × List (String × Option (List ProtoValue)) :=
  (file.package, file.enum_type, file.message_type.map MessageType.plain)

theorem fix_typename_ok {all : Names} {file : File} (h : FileResolves all file)
    (hext : file.extension = []) :
    ∃ file', fix_typename all file = .ok file' ∧ file'.plain = file.plain := by
  obtain ⟨l', hl, hplain⟩ := fixMessages_ok _ _ h.1
  have hl : fixMessages (file.package.elim "" fun package => "." ++ package.val) all
    file.message_type = .ok l' := hl
  refine ⟨{ file with message_type := l', extension := [] }, ?_, ?_⟩
  · rw [fix_typename, hl, hext]
    rfl
  · rw [File.plain, File.plain, hplain]

theorem fix_typename_fails {all : Names} {file : File} (h : FullNames all)
    (hext : file.extension ≠ [])
    (ht : ∀ f ∈ file.extension, ∃ t : Typename, f.extendee = some t.val) :
    ∀ file', fix_typename all file ≠ .ok file' := by
  intro file' hu
  obtain ⟨f, l, hl⟩ := List.exists_cons_of_ne_nil hext
  obtain ⟨t, ht⟩ := ht f (hl ▸ List.mem_cons_self)
  obtain ⟨e, he⟩ := extend_fails file.package h ht
  obtain ⟨_, -, hu⟩ := Fuel.bind_eq_ok.mp hu
  obtain ⟨_, hu, -⟩ := Fuel.bind_eq_ok.mp hu
  rw [fix_extension, hl, List.mapM_cons, he] at hu
  cases hu

theorem described_ok {files : List File}
    (h : ∀ file ∈ files, FileResolves (fileNames files) file ∧ file.extension = []) :
    ∃ out, described files = .ok out ∧ out.map File.plain = files.map File.plain :=
  mapM_ok fun file hfile => fix_typename_ok (h file hfile).1 (h file hfile).2

theorem extension_of_described {files out : List File} (h : described files = .ok out)
    (ht : ∀ file ∈ files, ∀ f ∈ file.extension, ∃ t : Typename, f.extendee = some t.val) :
    ∀ file ∈ files, file.extension = [] := by
  intro file hfile
  by_contra hext
  obtain ⟨file', hu⟩ := forall_of_mapM h file hfile
  exact fix_typename_fails (fullNames_files files) hext (ht file hfile) file' hu

/-! ## The cache of fields -/

/-- The fields of messages, the later of two with one name. -/
def addFields (cache : Cache) (l : List (String × List ProtoValue)) : Cache :=
  l.foldl (fun cache p => cache.insert p.1 (fields p.2)) cache

theorem cacheMessage_eq {m : MessageType} {p : String × List ProtoValue}
    (h : m.plain = (p.1, lazily p.2)) (cache : Cache) :
    cacheMessage cache m =
      if p.2.isEmpty then .error (some .ipairs_nil) else .ok (cache.insert p.1 (fields p.2)) := by
  obtain ⟨hname, hfield⟩ := Prod.mk.inj h
  rw [cacheMessage, hname]
  cases hp : p.2 with
  | nil =>
    rw [hp] at hfield
    rw [Option.map_eq_none_iff.mp hfield]
    rfl
  | cons v l =>
    rw [hp] at hfield
    obtain ⟨field, hm, hl⟩ := Option.map_eq_some_iff.mp hfield
    have hl : field.map Field.proto = v :: l := hl
    rw [hm]
    dsimp only
    rw [hl]
    rfl

theorem cacheAll_ok {msgs : List MessageType} {l : List (String × List ProtoValue)}
    (h : msgs.map MessageType.plain = l.map fun p => (p.1, lazily p.2)) (cache cache' : Cache) :
    msgs.foldlM cacheMessage cache = .ok cache' ↔
      (∀ p ∈ l, p.2 ≠ []) ∧ cache' = addFields cache l := by
  induction l generalizing msgs cache with
  | nil =>
    rw [List.map_eq_nil_iff.mp h]
    refine ⟨fun hu => ?_, fun hc => hc.2 ▸ rfl⟩
    cases hu
    exact ⟨fun _ hp => absurd hp List.not_mem_nil, rfl⟩
  | cons p l ih =>
    obtain ⟨m, ms, rfl, hm, hms⟩ := List.map_eq_cons_iff.mp h
    rw [List.foldlM_cons, cacheMessage_eq hm, List.forall_mem_cons]
    by_cases hp : p.2 = []
    · rw [if_pos (List.isEmpty_iff.mpr hp)]
      refine ⟨fun hu => ?_, fun hc => absurd hp hc.1.1⟩
      cases hu
    · rw [if_neg (mt List.isEmpty_iff.mp hp), and_iff_right hp]
      exact ih hms _

/-! ## Registering -/

variable {Env : Type} {pb : Env → List File → Option Env} {disk : Disk}

/-- The files that `parser.register` reads. -/
def filesOf (disk : Disk) (fileset : List String) (path : String) : List File :=
  fileset.map fun filename => fix filename ((disk (path ++ "/" ++ filename)).getD [])

/-- Their statements. -/
def textsOf (disk : Disk) (fileset : List String) (path : String) : List (List Statement) :=
  fileset.map fun filename => (disk (path ++ "/" ++ filename)).getD []

/-- The names of the files resolve. -/
def Resolved (files : List File) : Prop := ∀ file ∈ files, FileResolves (fileNames files) file

theorem extension_of_filesOf {fileset : List String} {path : String} {out : List File}
    (h : described (filesOf disk fileset path) = .ok out) :
    ∀ file ∈ filesOf disk fileset path, file.extension = [] := by
  refine extension_of_described h fun file hfile f hf => ?_
  obtain ⟨filename, -, rfl⟩ := List.mem_map.mp hfile
  exact extendee_fix hf

theorem plain_of_filesOf {fileset : List String} {path : String} {out : List File}
    (hres : Resolved (filesOf disk fileset path))
    (h : described (filesOf disk fileset path) = .ok out) :
    out.map File.plain = (filesOf disk fileset path).map File.plain := by
  obtain ⟨out', h', hplain⟩ := described_ok fun file hfile =>
    ⟨hres file hfile, extension_of_filesOf h file hfile⟩
  rw [h] at h'
  cases h'
  exact hplain

theorem foldlM_readFile (path : String) (fileset : List String) :
    ∀ (all : Names) (files : List File) (cache : Cache),
    (∀ filename ∈ fileset, (disk (path ++ "/" ++ filename)).isSome) →
    fileset.foldlM (readFile disk path) (all, files, cache) =
      (((filesOf disk fileset path).flatMap File.message_type).foldlM cacheMessage cache >>=
        fun cache => .ok ((filesOf disk fileset path).foldl gen_fullname all,
          files ++ filesOf disk fileset path, cache)) := by
  induction fileset with
  | nil =>
    intro all files cache _
    rw [filesOf, List.map_nil, List.append_nil]
    rfl
  | cons filename fileset ih =>
    intro all files cache h
    obtain ⟨hfile, h⟩ := List.forall_mem_cons.mp h
    obtain ⟨text, htext⟩ := Option.isSome_iff_exists.mp hfile
    have hfiles : filesOf disk (filename :: fileset) path =
        fix filename text :: filesOf disk fileset path := by
      rw [filesOf, List.map_cons, htext]
      rfl
    rw [List.foldlM_cons, hfiles, List.flatMap_cons, List.foldlM_append, readFile, htext]
    dsimp only
    rw [parser_one]
    cases hc : (fix filename text).message_type.foldlM cacheMessage cache with
    | error e => rfl
    | ok cache' =>
      rw [Fuel.ok_bind, Fuel.ok_bind, Fuel.ok_bind, ih _ _ _ h, List.append_assoc]
      rfl

theorem message_type_filesOf (disk : Disk) (fileset : List String) (path : String) :
    ((filesOf disk fileset path).flatMap File.message_type).map MessageType.plain =
      ((textsOf disk fileset path).flatMap messages).map fun p => (p.1, lazily p.2) := by
  rw [filesOf, textsOf, List.flatMap_map, List.flatMap_map, List.map_flatMap, List.map_flatMap]
  exact List.flatMap_congr fun filename _ => message_type_fix filename _

/-- `parser.register`, for files that can be read. -/
theorem register_ok {fileset : List String} {path : String} {s s' : State Env} {out : List File}
    (h : ∀ filename ∈ fileset, (disk (path ++ "/" ++ filename)).isSome) :
    register pb disk fileset path s = .ok (out, s') ↔
      (∀ p ∈ (textsOf disk fileset path).flatMap messages, p.2 ≠ []) ∧
        described (filesOf disk fileset path) = .ok out ∧ pb s.env out = some s'.env ∧
        s'.cache_fields = addFields s.cache_fields
          ((textsOf disk fileset path).flatMap messages) := by
  have hcache := cacheAll_ok (message_type_filesOf disk fileset path) s.cache_fields
  rw [register, foldlM_readFile path fileset _ _ _ h]
  constructor
  · intro hu
    obtain ⟨⟨all, files, cache⟩, hread, hu⟩ := Fuel.bind_eq_ok.mp hu
    obtain ⟨cache', hc, hread⟩ := Fuel.bind_eq_ok.mp hread
    cases hread
    obtain ⟨out', hout, hu⟩ := Fuel.bind_eq_ok.mp hu
    obtain ⟨hfields, hs⟩ := (hcache _).mp hc
    cases hpb : pb s.env out' with
    | none =>
      rw [hpb] at hu
      cases hu
    | some env =>
      rw [hpb] at hu
      cases hu
      exact ⟨hfields, hout, hpb, hs⟩
  · rintro ⟨hfields, hout, hpb, hs⟩
    have hout : (filesOf disk fileset path).mapM
        (fix_typename ((filesOf disk fileset path).foldl gen_fullname fun _ => none)) = .ok out :=
      hout
    rw [(hcache _).mpr ⟨hfields, hs⟩, Fuel.ok_bind, Fuel.ok_bind]
    dsimp only
    rw [List.nil_append, hout, Fuel.ok_bind, hpb]

end SkynetHotfix.Pbc
