import Mathlib.Data.List.AList
import Mathlib.Logic.Function.Basic

/-!
# Message tables of parsed proto packages

`parserEnumType`, `parserMessageType`, `parserPackage` and `parserMessagePackage`
of `common/ProtoLoader.lua`. The entries of a table are listed in the order in
which `pairs` meets them.

Names are identifiers: their first character is no item of a pattern for
`string.gsub`. The `log.error` of this file is the one of `Logger.lua`, which
raises.
-/

namespace SkynetHotfix.ProtoLoader

open Function (update)

/-! ## What the parser hands over -/

structure ProtoValue where
  name : String
  number : Int

structure ProtoEnum where
  name : String
  value : List ProtoValue

structure ProtoMessage where
  name : String
  field : List ProtoValue

structure ProtoPackage where
  package : Option String
  enum_type : Option (List ProtoEnum)
  message_type : Option (List ProtoMessage)

/-! ## Parsed packages -/

/-- `enum[field.name]`: the name at `1`, if there is one, is that of an entry. -/
structure Enum where
  first : Option String
  values : AList fun _ : String => Int
  first_mem : ∀ name ∈ first, name ∈ values

abbrev Message := AList fun _ : String => Int

structure Package where
  package : String
  enum_type : AList fun _ : String => Enum
  message_type : AList fun _ : String => Message

/-- `%w` -/
def isWord (c : Char) : Bool := c.isAlphanum

/-- `string.find(name, "^DMSG_[%w_]*_MSG$")` -/
def isFirst (name : String) : Bool :=
  let cs := name.toList
  "DMSG_".toList.isPrefixOf cs && "_MSG".toList.isSuffixOf (cs.drop 5) &&
    ((cs.drop 5).dropLast.dropLast.dropLast.dropLast).all fun c => isWord c || c = '_'

/-- `string.find(enum_type, "MsgType$")` -/
def isMsgType (enum_type : String) : Bool := "MsgType".toList.isSuffixOf enum_type.toList

/-- The entries of an enum, the later of two with one name. -/
def fields (l : List ProtoValue) : AList fun _ : String => Int :=
  l.foldl (fun fs value => fs.insert value.name value.number) ∅

theorem mem_fields {l : List ProtoValue} {value : ProtoValue} (hv : value ∈ l) :
    value.name ∈ fields l := by
  have key : ∀ (l : List ProtoValue) (fs : AList fun _ : String => Int),
      (value.name ∈ fs ∨ value ∈ l) →
      value.name ∈ l.foldl (fun fs value => fs.insert value.name value.number) fs := by
    intro l
    induction l with
    | nil => simp
    | cons v l ih =>
      intro fs h
      rw [List.foldl_cons]
      refine ih _ ?_
      rw [AList.mem_insert]
      rcases h with h | h
      · exact .inl (.inr h)
      · rcases List.mem_cons.mp h with rfl | h
        · exact .inl (.inl rfl)
        · exact .inr h
  exact key l ∅ (.inr hv)

/-- One turn of the outer loop of `parserEnumType`. -/
def parserEnum (values : List ProtoValue) : Enum where
  first := (values.head?.map ProtoValue.name).filter isFirst
  values := fields values
  first_mem name hn := by
    obtain ⟨value, hv, rfl⟩ := Option.map_eq_some_iff.mp (Option.mem_filter_iff.mp hn).1
    exact mem_fields (List.mem_of_mem_head? hv)

def parserEnumType (enum_type : Option (List ProtoEnum)) : AList fun _ : String => Enum :=
  (enum_type.getD []).foldl (fun enum field => enum.insert field.name (parserEnum field.value)) ∅

def parserMessageType (message_type : Option (List ProtoMessage)) : AList fun _ : String => Message :=
  (message_type.getD []).foldl
    (fun message message_field => message.insert message_field.name (fields message_field.field)) ∅

def parserPackage (proto_data : Option (List ProtoPackage)) : List Package :=
  (proto_data.getD []).map fun proto_package =>
    { package := proto_package.package.getD ""
      enum_type := parserEnumType proto_package.enum_type
      message_type := parserMessageType proto_package.message_type }

/-! ## The tables -/

/-- What is handed to `sharedata`. -/
structure Maps where
  message_cmd : String → Option Int
  message_map : Int → Option (Int → Option String)
  message_name_map : String → Option (Int × Int)

namespace Maps

def empty : Maps := ⟨fun _ => none, fun _ => none, fun _ => none⟩

/-- `message_map[main_id][sub_id]` -/
def message (m : Maps) (main_id sub_id : Int) : Option String :=
  (m.message_map main_id).bind (· sub_id)

/-- `message_map[main_id][sub_id] = message_name` -/
def put (m : Maps) (main_id sub_id : Int) (message_name : String) : Maps :=
  { m with
    message_map := update m.message_map main_id
      (some (update ((m.message_map main_id).getD fun _ => none) sub_id (some message_name))) }

end Maps

/-- `string.gsub(name, "^"..subStr, string.lower(subStr))`, with the first character for
`subStr`. -/
def messageName (name : String) : String :=
  match name.toList with
  | [] => name
  | c :: cs => String.ofList (c.toLower :: cs)

/-- One entry of an enum in the loop for `消息映射`. -/
def addMessage (package : Package) (first_enum_name : String) (main_cmd_id : Int) (m : Maps)
    (entry : Sigma fun _ : String => Int) : Maps :=
  if first_enum_name ≠ entry.1 then
    let message_name := messageName entry.1
    if message_name ∈ package.message_type then
      { m.put main_cmd_id entry.2 message_name with
        message_name_map := update m.message_name_map message_name (some (main_cmd_id, entry.2)) }
    else m.put main_cmd_id entry.2 ""
  else m

/-- One entry of an enum in the loop for `消息命令`; `none` where `log.error` raises. -/
def addCmd (first_enum_name : Option String) (m : Maps) (entry : Sigma fun _ : String => Int) :
    Option Maps :=
  if first_enum_name = some entry.1 then some m
  else
    match m.message_cmd entry.1 with
    | none => some { m with message_cmd := update m.message_cmd entry.1 (some entry.2) }
    | some _ => none

/-- `enum_field[1]` with `enum_field[first_enum_name]`. -/
def Enum.main (enum_field : Enum) : Option (String × Int) :=
  enum_field.first.bind fun first_enum_name =>
    (enum_field.values.lookup first_enum_name).map (first_enum_name, ·)

/-- One enum of a package. -/
def addEnum (package : Package) (m : Maps) (enum : Sigma fun _ : String => Enum) : Option Maps :=
  if isMsgType enum.1 then
    let m :=
      if enum.1 ≠ "MainMsgType" then
        match enum.2.main with
        | none => m
        | some (first_enum_name, main_cmd_id) =>
          let m := { m with
            message_map := update m.message_map main_cmd_id
              (some ((m.message_map main_cmd_id).getD fun _ => none)) }
          enum.2.values.entries.foldl (addMessage package first_enum_name main_cmd_id) m
      else m
    enum.2.values.entries.foldlM (addCmd enum.2.first) m
  else some m

/-- `parserMessagePackage`; `none` where it raises. -/
def parserMessagePackage (message_package : List (List Package)) : Option Maps :=
  message_package.flatten.foldlM (fun m package => package.enum_type.entries.foldlM (addEnum package) m)
    Maps.empty

end SkynetHotfix.ProtoLoader
