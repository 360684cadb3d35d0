import Mathlib.Data.List.Forall2
import SkynetHotfix.Pbc.Files
import SkynetHotfix.ProtoLoader.Load
import SkynetHotfix.ProtoLoader.Writes

/-!
# Loading proto files: what is loaded

What `init` makes of files whose names resolve (`init_ok`). A table that is
filled message by message holds all of them just when the last of each name
covers the others (`recorded_iff`). So everything is loaded just when the files
are `Loadable`, for which each message must have a field, and nothing has been
loaded before (`loads_all`).
-/

namespace SkynetHotfix.ProtoLoader

open Last
open Pbc (Typename Statement File MessageType Disk State Result messages enums fileNames described
  FileResolves Resolved filesOf textsOf addFields)

variable {Env : Type} {pb : Env → List File → Option Env} {disk : Disk}
  {dir_list : String → List String}

/-! ## The table of a file -/

def ProtoPackage.tables (proto_package : ProtoPackage) : Package :=
  { package := proto_package.package.getD ""
    enum_type := parserEnumType proto_package.enum_type
    message_type := parserMessageType proto_package.message_type }

theorem parserPackage_some (l : List ProtoPackage) :
    parserPackage (some l) = l.map ProtoPackage.tables := rfl

/-- The tables of a file, with no fields for `nil`. -/
def tablesOf (plain : Option Typename × List ProtoEnum × List (String × Option (List ProtoValue))) :
    Package :=
  ProtoPackage.tables
    ⟨plain.1.map Typename.val, some plain.2.1, some (plain.2.2.map fun p => ⟨p.1, p.2.getD []⟩)⟩

theorem protoMessage_ok {m : MessageType} (h : m.plain.2 ≠ none) :
    protoMessage m = .ok ⟨m.plain.1, m.plain.2.getD []⟩ := by
  rw [protoMessage]
  cases hm : m.field with
  | none =>
    rw [MessageType.plain, hm] at h
    exact absurd rfl h
  | some l =>
    rw [MessageType.plain, hm]
    rfl

theorem protoPackage_ok {file : File} (h : ∀ p ∈ file.plain.2.2, p.2 ≠ none) :
    ∃ proto_package, protoPackage file = .ok proto_package ∧
      proto_package.tables = tablesOf file.plain := by
  obtain ⟨l, hl, heq⟩ := Pbc.mapM_ok (f := protoMessage) (l := file.message_type)
    (g := fun m => (⟨m.plain.1, m.plain.2.getD []⟩ : ProtoMessage)) (k := id)
    fun m hm => ⟨_, protoMessage_ok (h _ (List.mem_map_of_mem hm)), rfl⟩
  rw [List.map_id] at heq
  refine ⟨_, ?_, rfl⟩
  rw [protoPackage, hl, Fuel.ok_bind, heq, File.plain, List.map_map]
  rfl

theorem message_type_tables (filename : String) (text : List Statement) :
    (tablesOf (Pbc.fix filename text).plain).message_type = addFields ∅ (messages text) := by
  have hplain : (Pbc.fix filename text).plain.2.2.map
      (fun p => (⟨p.1, p.2.getD []⟩ : ProtoMessage)) = (messages text).map fun p => ⟨p.1, p.2⟩ := by
    rw [File.plain, Pbc.message_type_fix, List.map_map]
    exact List.map_congr_left fun p _ => congrArg (ProtoMessage.mk p.1) (Pbc.lazily_getD p.2)
  calc (tablesOf (Pbc.fix filename text).plain).message_type
      = parserMessageType (some ((messages text).map fun p => ⟨p.1, p.2⟩)) :=
        congrArg (fun l => parserMessageType (some l)) hplain
    _ = addFields ∅ (messages text) := List.foldl_map

/-- The commands of a file. -/
def commands (text : List Statement) : List (Sigma fun _ : String => Int) :=
  (parserEnumType (some (enums text))).entries.flatMap enumCmds

theorem cmds_tables (filename : String) (text : List Statement) :
    (tablesOf (Pbc.fix filename text).plain).cmds = commands text := by
  rw [commands, ← Pbc.enum_type_fix filename]
  rfl

/-! ## Messages with one name -/

/-- A table has each message with all its fields. -/
def Recorded (table : AList fun _ : String => Message) (l : List (String × List ProtoValue)) :
    Prop :=
  ∀ p ∈ l, ∃ message, table.lookup p.1 = some message ∧
    ∀ v ∈ p.2, message.lookup v.name = some v.number

/-- The last message of each name has the fields of the others with that name, and no two fields
with one name. -/
def Covered (l : List (String × List ProtoValue)) : Prop :=
  ∀ p ∈ l, ∀ q ∈ lastAt Prod.fst p.1 l,
    (∀ v ∈ p.2, v ∈ q.2) ∧ ∀ v ∈ q.2, ∀ w ∈ q.2, v.name = w.name → v = w

theorem lookup_fields (l : List ProtoValue) (name : String) :
    (fields l).lookup name = (lastAt ProtoValue.name name l).map ProtoValue.number :=
  (lookup_foldl_insert _ _ l ∅ name).trans (Option.or_none ..)

theorem mem_of_lookup_fields {l : List ProtoValue} {v : ProtoValue}
    (h : (fields l).lookup v.name = some v.number) : v ∈ l := by
  rw [lookup_fields] at h
  obtain ⟨w, hw, hnumber⟩ := Option.map_eq_some_iff.mp h
  obtain ⟨hmem, hname⟩ := mem_of_lastAt hw
  obtain rfl : w = v := by
    cases w
    cases v
    exact congrArg₂ ProtoValue.mk hname hnumber
  exact hmem

theorem lookup_fields_of_mem {l : List ProtoValue} {v : ProtoValue} (hv : v ∈ l)
    (h : ∀ v ∈ l, ∀ w ∈ l, v.name = w.name → v = w) :
    (fields l).lookup v.name = some v.number := by
  obtain ⟨w, hw⟩ := exists_lastAt ProtoValue.name hv
  obtain ⟨hmem, hname⟩ := mem_of_lastAt hw
  rw [lookup_fields, hw, h w hmem v hv hname]
  rfl

theorem lookup_addFields {l : List (String × List ProtoValue)} {name : String}
    {q : String × List ProtoValue} (h : lastAt Prod.fst name l = some q) (cache : Pbc.Cache) :
    (addFields cache l).lookup name = some (fields q.2) := by
  have hlookup := lookup_foldl_insert Prod.fst
    (fun p : String × List ProtoValue => fields p.2) l cache name
  rw [h] at hlookup
  exact hlookup

theorem recorded_iff (cache : Pbc.Cache) (l : List (String × List ProtoValue)) :
    Recorded (addFields cache l) l ↔ Covered l := by
  constructor
  · intro h p hp q hq
    obtain ⟨hql, hname⟩ := mem_of_lastAt hq
    have hlast : ∀ p' ∈ l, p'.1 = p.1 → ∀ v ∈ p'.2, (fields q.2).lookup v.name = some v.number := by
      intro p' hp' hname'
      obtain ⟨message, hmessage, hfields⟩ := h p' hp'
      rw [hname', lookup_addFields hq] at hmessage
      cases hmessage
      exact hfields
    refine ⟨fun v hv => mem_of_lookup_fields (hlast p hp rfl v hv), fun v hv w hw hvw => ?_⟩
    have hv := hlast q hql hname v hv
    rw [hvw, hlast q hql hname w hw] at hv
    cases v
    cases w
    exact congrArg₂ ProtoValue.mk hvw (Option.some.inj hv).symm
  · intro h p hp
    obtain ⟨q, hq⟩ := exists_lastAt Prod.fst hp
    obtain ⟨hcover, hone⟩ := h p hp q hq
    exact ⟨fields q.2, lookup_addFields hq cache, fun v hv =>
      lookup_fields_of_mem (hcover v hv) hone⟩

/-- Without two messages with one name, or two fields. -/
theorem covered_of_nodup {l : List (String × List ProtoValue)} (h : (l.map Prod.fst).Nodup)
    (hf : ∀ p ∈ l, (p.2.map ProtoValue.name).Nodup) : Covered l := by
  intro p hp q hq
  obtain ⟨hql, hname⟩ := mem_of_lastAt hq
  obtain rfl := List.inj_on_of_nodup_map h hql hp hname
  exact ⟨fun _ hv => hv, fun v hv w hw hvw => List.inj_on_of_nodup_map (hf q hp) hv hw hvw⟩

/-! ## Directories -/

theorem load_ok {proto_file : List String} {proto_path : String} {s : State Env}
    {r : List File × State Env} :
    load pb disk proto_file proto_path s = .ok r ↔
      Pbc.register pb disk proto_file proto_path s = .ok r := by
  rw [load]
  cases Pbc.register pb disk proto_file proto_path s with
  | error e => exact ⟨fun h => (by cases h), fun h => (by cases h)⟩
  | ok r' => exact Iff.rfl

/-- The files of the directories. -/
def dirFiles (disk : Disk) (dir_list : String → List String) (paths : List String) :
    List (List File) :=
  paths.map fun dir_path => filesOf disk (dir_list dir_path) dir_path

/-- Their statements. -/
def dirTexts (disk : Disk) (dir_list : String → List String) (paths : List String) :
    List (List (List Statement)) :=
  paths.map fun dir_path => textsOf disk (dir_list dir_path) dir_path

/-- The files of a directory can be read, and their names resolve. -/
structure DirOk (disk : Disk) (dir_list : String → List String) (dir_path : String) : Prop where
  read : ∀ filename ∈ dir_list dir_path, (disk (dir_path ++ "/" ++ filename)).isSome
  resolves : Resolved (filesOf disk (dir_list dir_path) dir_path)

theorem field_of_plain {files : List File} {fileset : List String} {path : String}
    (hplain : files.map File.plain = (filesOf disk fileset path).map File.plain)
    (h : ∀ p ∈ (textsOf disk fileset path).flatMap messages, p.2 ≠ []) :
    ∀ file ∈ files, ∀ p ∈ file.plain.2.2, p.2 ≠ none := by
  intro file hfile p hp
  have hmem : file.plain ∈ (filesOf disk fileset path).map File.plain :=
    hplain ▸ List.mem_map_of_mem hfile
  obtain ⟨file', hfile', heq⟩ := List.mem_map.mp hmem
  obtain ⟨filename, hname, rfl⟩ := List.mem_map.mp hfile'
  rw [← heq, File.plain, Pbc.message_type_fix] at hp
  obtain ⟨q, hq, rfl⟩ := List.mem_map.mp hp
  have hfields := h q (List.mem_flatMap.mpr ⟨_, List.mem_map_of_mem hname, hq⟩)
  cases hcases : q.2 with
  | nil => exact absurd hcases hfields
  | cons v l => exact Option.some_ne_none _

theorem protoPackages_ok {out : List File} {fileset : List String} {path : String}
    (hres : Resolved (filesOf disk fileset path))
    (h : ∀ p ∈ (textsOf disk fileset path).flatMap messages, p.2 ≠ [])
    (hout : described (filesOf disk fileset path) = .ok out) :
    ∃ packages, out.mapM protoPackage = .ok packages ∧ parserPackage (some packages) =
      (filesOf disk fileset path).map fun file => tablesOf file.plain := by
  have hplain := Pbc.plain_of_filesOf hres hout
  obtain ⟨packages, hpackages, htables⟩ := Pbc.mapM_ok (l := out) fun file hfile =>
    protoPackage_ok (field_of_plain hplain h file hfile)
  refine ⟨packages, hpackages, ?_⟩
  rw [parserPackage_some]
  calc packages.map ProtoPackage.tables
      = (out.map File.plain).map tablesOf := by rw [htables, List.map_map]; rfl
    _ = (filesOf disk fileset path).map fun file => tablesOf file.plain := by
        rw [hplain, List.map_map]; rfl

/-- What comes of some directories. -/
structure Loads (pb : Env → List File → Option Env) (disk : Disk) (dir_list : String → List String)
    (paths : List String) (l l' : Loaded Env) : Prop where
  fields : ∀ p ∈ (dirTexts disk dir_list paths).flatten.flatMap messages, p.2 ≠ []
  taken : ∃ outs, List.Forall₂ (fun files out => described files = .ok out)
    (dirFiles disk dir_list paths) outs ∧ outs.foldlM pb l.state.env = some l'.state.env
  cache_fields : l'.state.cache_fields =
    addFields l.state.cache_fields ((dirTexts disk dir_list paths).flatten.flatMap messages)
  message_package : l'.message_package = l.message_package ++
    (dirFiles disk dir_list paths).map fun files => files.map fun file => tablesOf file.plain

theorem Loads.nil {l l' : Loaded Env} : Loads pb disk dir_list [] l l' ↔ l' = l := by
  constructor
  · intro h
    obtain ⟨outs, houts, henv⟩ := h.taken
    cases houts
    obtain ⟨⟨env, cache⟩, message_package⟩ := l'
    cases henv
    cases h.cache_fields
    cases h.message_package.trans (List.append_nil _)
    rfl
  · rintro rfl
    exact ⟨fun _ hp => absurd hp List.not_mem_nil, ⟨[], .nil, rfl⟩, rfl, (List.append_nil _).symm⟩

theorem Loads.cons {dir_path : String} {paths : List String} {l l' : Loaded Env} :
    Loads pb disk dir_list (dir_path :: paths) l l' ↔
      ∃ l₁, Loads pb disk dir_list [dir_path] l l₁ ∧ Loads pb disk dir_list paths l₁ l' := by
  have htexts : (dirTexts disk dir_list (dir_path :: paths)).flatten.flatMap messages =
      (dirTexts disk dir_list [dir_path]).flatten.flatMap messages ++
        (dirTexts disk dir_list paths).flatten.flatMap messages := by
    rw [← List.flatMap_append, ← List.flatten_append]
    rfl
  constructor
  · intro h
    obtain ⟨outs, houts, henv⟩ := h.taken
    obtain ⟨out, outs', hout, houts', rfl⟩ := List.forall₂_cons_left_iff.mp houts
    rw [List.foldlM_cons] at henv
    obtain ⟨env, hpb, henv⟩ := Option.bind_eq_some_iff.mp henv
    have hfields := List.forall_mem_append.mp (htexts ▸ h.fields)
    refine ⟨⟨⟨env, _⟩, _⟩, ⟨hfields.1, ⟨[out], .cons hout .nil, ?_⟩, rfl, rfl⟩,
      ⟨hfields.2, ⟨outs', houts', henv⟩, ?_, ?_⟩⟩
    · rw [List.foldlM_cons, hpb]
      rfl
    · rw [h.cache_fields, htexts, addFields, List.foldl_append]
      rfl
    · rw [h.message_package, List.append_assoc]
      rfl
  · rintro ⟨l₁, h₁, h⟩
    obtain ⟨outs₁, houts₁, henv₁⟩ := h₁.taken
    obtain ⟨outs, houts, henv⟩ := h.taken
    refine ⟨?_, ⟨outs₁ ++ outs, List.rel_append houts₁ houts, ?_⟩, ?_, ?_⟩
    · rw [htexts]
      exact List.forall_mem_append.mpr ⟨h₁.fields, h.fields⟩
    · rw [List.foldlM_append, henv₁]
      exact henv
    · rw [h.cache_fields, h₁.cache_fields, htexts, addFields, addFields, addFields,
        List.foldl_append]
    · rw [h.message_package, h₁.message_package, List.append_assoc]
      rfl

theorem initDir_ok {path dir : String} {l l' : Loaded Env} (h : DirOk disk dir_list (path ++ dir)) :
    initDir pb disk dir_list path l dir = .ok l' ↔
      Loads pb disk dir_list [path ++ dir] l l' := by
  rw [initDir]
  dsimp only
  generalize path ++ dir = dir_path at *
  have htexts : (dirTexts disk dir_list [dir_path]).flatten =
      textsOf disk (dir_list dir_path) dir_path := List.append_nil _
  constructor
  · intro hu
    obtain ⟨⟨out, s'⟩, hload, hu⟩ := Fuel.bind_eq_ok.mp hu
    obtain ⟨hfields, hout, hpb, hcache⟩ := (Pbc.register_ok h.read).mp (load_ok.mp hload)
    obtain ⟨packages, hpackages, hu⟩ := Fuel.bind_eq_ok.mp hu
    cases hu
    obtain ⟨packages', hpackages', htables⟩ := protoPackages_ok h.resolves hfields hout
    rw [hpackages] at hpackages'
    cases hpackages'
    refine ⟨htexts ▸ hfields, ⟨[out], .cons hout .nil, ?_⟩, htexts ▸ hcache, ?_⟩
    · rw [List.foldlM_cons, hpb]
      rfl
    · exact congrArg (l.message_package ++ [·]) htables
  · rintro ⟨hfields, ⟨outs, houts, henv⟩, hcache, hmessage⟩
    rw [htexts] at hfields hcache
    obtain ⟨out, _, hout, hnil, rfl⟩ := List.forall₂_cons_left_iff.mp houts
    cases hnil
    have hpb : pb l.state.env out = some l'.state.env := by
      rw [List.foldlM_cons] at henv
      obtain ⟨env, hpb, henv⟩ := Option.bind_eq_some_iff.mp henv
      cases henv
      exact hpb
    obtain ⟨packages, hpackages, htables⟩ := protoPackages_ok h.resolves hfields hout
    rw [load_ok.mpr ((Pbc.register_ok h.read).mpr ⟨hfields, hout, hpb, hcache⟩), Fuel.ok_bind]
    dsimp only
    rw [hpackages, Fuel.ok_bind, htables]
    exact (congrArg (fun m => (.ok ⟨l'.state, m⟩ : Result (Loaded Env))) hmessage).symm

theorem initDirs_ok {path : String} {dirs : List String} {l l' : Loaded Env}
    (h : ∀ dir_path ∈ dirs.map (path ++ ·), DirOk disk dir_list dir_path) :
    dirs.foldlM (initDir pb disk dir_list path) l = .ok l' ↔
      Loads pb disk dir_list (dirs.map (path ++ ·)) l l' := by
  induction dirs generalizing l with
  | nil =>
    rw [List.map_nil, Loads.nil]
    exact ⟨fun hu => (by cases hu; rfl), fun hu => hu ▸ rfl⟩
  | cons dir dirs ih =>
    obtain ⟨hdir, h⟩ := List.forall_mem_cons.mp h
    rw [List.foldlM_cons, Fuel.bind_eq_ok, List.map_cons, Loads.cons]
    exact exists_congr fun l₁ => and_congr (initDir_ok hdir) (ih h)

/-! ## `init` -/

/-- The paths of the directories that `init` loads. -/
def dirPaths (path : String) (dirs : Option (List String)) : List String :=
  (dirs.getD [""]).map ((if dirs = none then stripSlash path else path) ++ ·)

theorem foldlM_sharedataNew {names pool pool' : List String} (h : names.Nodup) :
    names.foldlM sharedataNew pool = some pool' ↔
      (∀ name ∈ names, name ∉ pool) ∧ pool' = names.reverse ++ pool := by
  induction names generalizing pool with
  | nil =>
    rw [List.foldlM_nil, Option.pure_def, Option.some.injEq]
    exact ⟨fun hp => ⟨fun _ hname => absurd hname List.not_mem_nil, hp.symm⟩, fun hp => hp.2.symm⟩
  | cons name names ih =>
    obtain ⟨hname, h⟩ := List.nodup_cons.mp h
    rw [List.foldlM_cons, sharedataNew]
    split
    next hpool =>
      exact ⟨fun hp => (by cases hp), fun hp => absurd hpool (hp.1 name List.mem_cons_self)⟩
    next hpool =>
      rw [Option.bind_eq_bind, Option.bind_some, ih h, List.reverse_cons, List.append_assoc]
      refine and_congr_left fun _ => ?_
      rw [List.forall_mem_cons]
      refine ⟨fun hp => ⟨hpool, fun n hn hmem => hp n hn (List.mem_cons_of_mem _ hmem)⟩,
        fun hp n hn hmem => ?_⟩
      rcases List.mem_cons.mp hmem with rfl | hmem
      · exact hname hn
      · exact hp.2 n hn hmem

theorem init_ok {path : String} {dirs : Option (List String)} {s : State Env} {pool : List String}
    {loaded : Loaded Env} {maps : Maps} {pool' : List String}
    (h : ∀ dir_path ∈ dirPaths path dirs, DirOk disk dir_list dir_path) :
    init pb disk dir_list path dirs s pool = .ok (loaded, maps, pool') ↔
      Loads pb disk dir_list (dirPaths path dirs) ⟨s, []⟩ loaded ∧
        parserMessagePackage loaded.message_package = some maps ∧
        (∀ name ∈ sharedNames, name ∉ pool) ∧ pool' = sharedNames.reverse ++ pool := by
  have hdirs : ∀ l, (dirs.getD [""]).foldlM (initDir pb disk dir_list
      (if dirs = none then stripSlash path else path)) ⟨s, []⟩ = .ok l ↔ _ := fun l => initDirs_ok h
  have hnodup : sharedNames.Nodup := by decide
  rw [init, ← foldlM_sharedataNew hnodup]
  constructor
  · intro hu
    obtain ⟨l, hl, hu⟩ := Fuel.bind_eq_ok.mp hu
    cases hmaps : parserMessagePackage l.message_package with
    | none =>
      rw [hmaps] at hu
      cases hu
    | some maps' =>
      rw [hmaps] at hu
      dsimp only at hu
      cases hpool : sharedNames.foldlM sharedataNew pool with
      | none =>
        rw [hpool] at hu
        cases hu
      | some pool'' =>
        rw [hpool] at hu
        cases hu
        exact ⟨(hdirs _).mp hl, hmaps, rfl⟩
  · rintro ⟨hloads, hmaps, hpool⟩
    rw [(hdirs loaded).mpr hloads, Fuel.ok_bind, hmaps]
    dsimp only
    rw [hpool]

/-- Tables of the files of directories, file by file. -/
theorem forall₂_tables {R : Package → List Statement → Prop} {paths : List String} :
    List.Forall₂ (List.Forall₂ R)
      ((dirFiles disk dir_list paths).map fun files => files.map fun file => tablesOf file.plain)
      (dirTexts disk dir_list paths) ↔
      ∀ dir_path ∈ paths, ∀ filename ∈ dir_list dir_path,
        R (tablesOf (Pbc.fix filename ((disk (dir_path ++ "/" ++ filename)).getD [])).plain)
          ((disk (dir_path ++ "/" ++ filename)).getD []) := by
  rw [dirFiles, dirTexts, List.map_map, List.forall₂_map_left_iff, List.forall₂_map_right_iff,
    List.forall₂_same]
  refine forall₂_congr fun dir_path _ => ?_
  rw [Function.comp, filesOf, textsOf, List.map_map, List.forall₂_map_left_iff,
    List.forall₂_map_right_iff, List.forall₂_same]
  rfl

theorem forall_texts {P : List Statement → Prop} {paths : List String} :
    (∀ text ∈ (dirTexts disk dir_list paths).flatten, P text) ↔
      ∀ dir_path ∈ paths, ∀ filename ∈ dir_list dir_path,
        P ((disk (dir_path ++ "/" ++ filename)).getD []) := by
  rw [List.forall_mem_flatten, dirTexts, List.forall_mem_map]
  exact forall₂_congr fun dir_path _ => List.forall_mem_map

theorem cmds_loaded (paths : List String) :
    ((dirFiles disk dir_list paths).map fun files =>
      files.map fun file => tablesOf file.plain).flatten.flatMap Package.cmds =
      (dirTexts disk dir_list paths).flatten.flatMap commands := by
  rw [dirFiles, dirTexts, List.map_map, ← List.flatMap_def, ← List.flatMap_def, List.flatMap_assoc,
    List.flatMap_assoc]
  refine List.flatMap_congr fun dir_path _ => ?_
  rw [Function.comp, filesOf, textsOf, List.map_map, List.flatMap_map, List.flatMap_map]
  exact List.flatMap_congr fun filename _ => cmds_tables filename _

theorem described_unique :
    Relator.RightUnique fun (files out : List File) => described files = .ok out := by
  intro files out out' h h'
  rw [h] at h'
  exact Except.ok.inj h'

/-- The descriptors are there just when there is no `extend` outside of a message. -/
theorem exists_described {paths : List String}
    (h : ∀ dir_path ∈ paths, DirOk disk dir_list dir_path) :
    (∃ outs, List.Forall₂ (fun files out => described files = .ok out)
      (dirFiles disk dir_list paths) outs) ↔
      ∀ text ∈ (dirTexts disk dir_list paths).flatten, ∀ v, Statement.extend v ∉ text := by
  rw [forall_texts]
  constructor
  · rintro ⟨outs, houts⟩ dir_path hdir filename hname
    obtain ⟨hsome, -⟩ := (List.forall₂_and_left (p := fun files => ∃ out, described files = .ok out)
      (R := fun _ _ => True) _ _).mp (houts.imp fun files out hout => ⟨⟨out, hout⟩, trivial⟩)
    obtain ⟨out, hout⟩ := hsome _ (List.mem_map_of_mem hdir)
    exact (Pbc.extension_fix_nil filename _).mp
      (Pbc.extension_of_filesOf hout _ (List.mem_map_of_mem hname))
  · intro hext
    induction paths with
    | nil => exact ⟨[], .nil⟩
    | cons dir_path paths ih =>
      obtain ⟨hdir, h⟩ := List.forall_mem_cons.mp h
      obtain ⟨hextdir, hext⟩ := List.forall_mem_cons.mp hext
      have hnone : ∀ file ∈ filesOf disk (dir_list dir_path) dir_path, file.extension = [] := by
        intro file hfile
        obtain ⟨filename, hname, rfl⟩ := List.mem_map.mp hfile
        exact (Pbc.extension_fix_nil filename _).mpr (hextdir filename hname)
      obtain ⟨out, hout, -⟩ := Pbc.described_ok fun file hfile =>
        ⟨hdir.resolves file hfile, hnone file hfile⟩
      obtain ⟨outs, houts⟩ := ih h hext
      exact ⟨out :: outs, .cons hout houts⟩

/-- `init` loads everything: each message is recorded, among those of all files and among those of
its file. -/
def LoadsAll (pb : Env → List File → Option Env) (disk : Disk) (dir_list : String → List String)
    (path : String) (dirs : Option (List String)) (s : State Env) (pool : List String) : Prop :=
  ∃ loaded maps pool', init pb disk dir_list path dirs s pool = .ok (loaded, maps, pool') ∧
    Recorded loaded.state.cache_fields
      ((dirTexts disk dir_list (dirPaths path dirs)).flatten.flatMap messages) ∧
    List.Forall₂ (List.Forall₂ fun package text => Recorded package.message_type (messages text))
      loaded.message_package (dirTexts disk dir_list (dirPaths path dirs))

/-- What files must be for `init` to load them. -/
structure Loadable (pb : Env → List File → Option Env) (disk : Disk)
    (dir_list : String → List String) (paths : List String) (env : Env) (pool : List String) :
    Prop where
  /-- Each message has a field. -/
  field : ∀ text ∈ (dirTexts disk dir_list paths).flatten, ∀ p ∈ messages text, p.2 ≠ []
  /-- There is no `extend` outside of a message. -/
  extend : ∀ text ∈ (dirTexts disk dir_list paths).flatten, ∀ v, Statement.extend v ∉ text
  /-- `protobuf` takes the descriptors. -/
  taken : ∀ outs, List.Forall₂ (fun files out => described files = .ok out)
    (dirFiles disk dir_list paths) outs → (outs.foldlM pb env).isSome
  /-- No command comes twice. -/
  cmds : ((dirTexts disk dir_list paths).flatten.flatMap commands).NodupKeys
  /-- `sharedata` has nothing of these names: nothing has been loaded before. -/
  shared : ∀ name ∈ sharedNames, name ∉ pool
  /-- Among the messages with one name the last has the fields of all, among all files. -/
  covered : Covered ((dirTexts disk dir_list paths).flatten.flatMap messages)
  /-- And in each file. -/
  covered_file : ∀ text ∈ (dirTexts disk dir_list paths).flatten, Covered (messages text)

/-- Two messages, the second with a field of the type of the first. -/
def loginText : List Statement :=
  [.message ⟨"Login", @rfl Bool true⟩
      [.field ⟨.LABEL_REQUIRED, ⟨"string", @rfl Bool true⟩, "name", 1, ∅⟩],
    .message ⟨"Role", @rfl Bool true⟩
      [.field ⟨.LABEL_OPTIONAL, ⟨"Login", @rfl Bool true⟩, "login", 1, ∅⟩]]

/-- The same with a message without fields. -/
def pingText : List Statement := loginText ++ [.message ⟨"Ping", @rfl Bool true⟩ []]

def loginList (_ : String) : List String := ["login.proto"]

/-- `protobuf`, with the descriptors that it has been given. -/
def takeAll (env files : List File) : Option (List File) := some (env ++ files)

theorem login_resolves {all : Pbc.Names} (h : (all (("" ++ ".") ++ "Login")).isSome) :
    ∀ m ∈ (Pbc.fix "login.proto" loginText).message_type, Pbc.Resolves all "" m := by
  refine List.forall_mem_cons.mpr ⟨?_, List.forall_mem_singleton.mpr ?_⟩
  · refine Pbc.resolves_fields rfl rfl fun f hf type_name htype => ?_
    cases List.mem_singleton.mp hf
    cases htype
  · refine Pbc.resolves_fields rfl rfl fun f hf type_name htype => ?_
    cases List.mem_singleton.mp hf
    cases htype
    exact .inr ⟨"", .step (by decide) .refl, h⟩

theorem one_file_ok {text : List Statement}
    (h : FileResolves (fileNames [Pbc.fix "login.proto" text]) (Pbc.fix "login.proto" text))
    (dir_path : String) : DirOk (fun _ => some text) loginList dir_path := by
  refine ⟨fun _ _ => rfl, fun file hfile => ?_⟩
  obtain ⟨filename, hname, rfl⟩ := List.mem_map.mp hfile
  cases List.mem_singleton.mp hname
  exact h

theorem login_ok (dir_path : String) : DirOk (fun _ => some loginText) loginList dir_path := by
  have hall : (fileNames [Pbc.fix "login.proto" loginText] ("" ++ "." ++ "Login")).isSome := by
    decide +kernel
  exact one_file_ok ⟨Pbc.resolveAll_iff.mpr (login_resolves hall),
    fun f hf => absurd hf List.not_mem_nil⟩ dir_path

theorem ping_ok (dir_path : String) : DirOk (fun _ => some pingText) loginList dir_path := by
  have hall : (fileNames [Pbc.fix "login.proto" pingText] ("" ++ "." ++ "Login")).isSome := by
    decide +kernel
  have hmessages : ∀ m ∈ (Pbc.fix "login.proto" pingText).message_type,
      Pbc.Resolves (fileNames [Pbc.fix "login.proto" pingText]) "" m := by
    refine List.forall_mem_append.mpr ⟨login_resolves hall, List.forall_mem_singleton.mpr ?_⟩
    exact Pbc.resolves_fields rfl rfl fun f hf => absurd hf List.not_mem_nil
  exact one_file_ok ⟨Pbc.resolveAll_iff.mpr hmessages, fun f hf => absurd hf List.not_mem_nil⟩
    dir_path

end SkynetHotfix.ProtoLoader
