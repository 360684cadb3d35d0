import SkynetHotfix.Lib.Fuel
import SkynetHotfix.ProtoLoader.Basic

/-!
# The proto parser

`lua-pbc/parser.lua`, from what the grammar captures of a file (`Statement`) to
the descriptors that `protobuf` is given. A list that is made when it gets its
first element is the empty list before, but for the fields of a message: these
are read without a test for `nil`.
-/

namespace SkynetHotfix.Pbc

open Function (update)
open ProtoLoader (ProtoValue ProtoEnum fields)

/-! ## Captures -/

/-- `alpha` and `alnum` -/
def isAlpha (c : Char) : Bool := c.isAlpha || c == '_'

def isAlnum (c : Char) : Bool := isAlpha c || c.isDigit

/-- `alnum^0 * dotname` -/
def isTypenameRest : List Char → Bool
  | [] => true
  | '.' :: c :: cs => isAlpha c && isTypenameRest cs
  | c :: cs => isAlnum c && isTypenameRest cs

/-- `alpha * alnum^0 * dotname` -/
def isTypename : List Char → Bool
  | [] => false
  | c :: cs => isAlpha c && isTypenameRest cs

/-- `typename` -/
structure Typename where
  val : String
  grammar : isTypename val.toList = true

inductive Label
  | LABEL_REQUIRED
  | LABEL_OPTIONAL
  | LABEL_REPEATED
deriving DecidableEq

/-- `value` -/
inductive Value
  | str (s : String)
  | bool (b : Bool)
  | name (s : String)
  | id (n : Int)
deriving DecidableEq

abbrev Options := AList fun _ : String => Value

/-- `message_field` -/
structure MessageField where
  label : Label
  type_name : Typename
  name : String
  number : Int
  options : Options

/-- `ENUM` -/
structure EnumItems where
  name : Typename
  value : List ProtoValue
  nonempty : value ≠ []

/-- `EXTEND` -/
structure Extend where
  name : Typename
  extension : List MessageField
  nonempty : extension ≠ []

/-- The items of a `MESSAGE`. -/
inductive Item
  | field (v : MessageField)
  | enum (v : EnumItems)
  | extensions (first last : Int)
  | extend (v : Extend)
  | message (name : Typename) (items : List Item)

/-- The statements of a file. -/
inductive Statement
  | enum (v : EnumItems)
  | extend (v : Extend)
  | message (name : Typename) (items : List Item)
  | option (name : String) (value : Value)
  | importFile (name : String)
  | package (name : Typename)

/-! ## Descriptors -/

inductive FieldType
  | TYPE_DOUBLE | TYPE_FLOAT | TYPE_UINT64 | TYPE_INT32 | TYPE_INT64 | TYPE_FIXED64 | TYPE_FIXED32
  | TYPE_BOOL | TYPE_STRING | TYPE_BYTES | TYPE_UINT32 | TYPE_SFIXED32 | TYPE_SFIXED64 | TYPE_SINT32
  | TYPE_SINT64 | TYPE_MESSAGE | TYPE_ENUM
deriving DecidableEq

open FieldType in
def internal_type : List (String × FieldType) :=
  [("double", TYPE_DOUBLE), ("float", TYPE_FLOAT), ("uint64", TYPE_UINT64), ("int", TYPE_INT32),
    ("int32", TYPE_INT32), ("int64", TYPE_INT64), ("fixed64", TYPE_FIXED64),
    ("fixed32", TYPE_FIXED32), ("bool", TYPE_BOOL), ("string", TYPE_STRING), ("bytes", TYPE_BYTES),
    ("uint32", TYPE_UINT32), ("sfixed32", TYPE_SFIXED32), ("sfixed64", TYPE_SFIXED64),
    ("sint32", TYPE_SINT32), ("sint64", TYPE_SINT64)]

structure Field where
  label : Label
  name : String
  number : Int
  type : Option FieldType
  type_name : Option String
  options : Options
  default_value : Option String
  extendee : Option String

/-- The descriptor of a message: `field` is `nil` if it has none. -/
structure MessageType where
  name : String
  field : Option (List Field)
  nested_type : List MessageType
  enum_type : List ProtoEnum
  extension : List Field
  extension_range : List (Int × Int)

structure File where
  name : String
  package : Option Typename
  dependency : List String
  message_type : List MessageType
  enum_type : List ProtoEnum
  extension : List Field
  options : Options

inductive Fault
  | ipairs_nil
  | concat_nil
  | unresolved
  | unread
  | protobuf
  | log
  | sharedata
deriving DecidableEq

abbrev Result := Fuel.Result Fault

/-! ## What is dealt with -/

/-- A field with its type, if it is an internal one. -/
def MessageField.typed (v : MessageField) (extendee : Option String) : Field :=
  let type := internal_type.lookup v.type_name.val
  { label := v.label
    name := v.name
    number := v.number
    type := type
    type_name := if type.isSome then none else some v.type_name.val
    options := v.options
    default_value := none
    extendee := extendee }

def EnumItems.proto (v : EnumItems) : ProtoEnum := ⟨v.name.val, v.value⟩

/-- `deal:extend`, with what it adds to `extension`. -/
def Extend.fields (v : Extend) : List Field :=
  v.extension.map fun f => f.typed (some v.name.val)

/-- `{ name = v.name }` -/
def MessageType.new (name : Typename) : MessageType := ⟨name.val, none, [], [], [], []⟩

mutual

/-- `_add_nested_message`, and `deal` for the items of a message. -/
def add_nested_message (self : MessageType) : Item → MessageType
  | .field v => { self with field := some (self.field.getD [] ++ [v.typed none]) }
  | .enum v => { self with enum_type := self.enum_type ++ [v.proto] }
  | .extensions first last =>
    { self with extension_range := self.extension_range ++ [(first, last)] }
  | .extend v => { self with extension := self.extension ++ v.fields }
  | .message name items =>
    { self with nested_type := self.nested_type ++ [addItems (MessageType.new name) items] }

/-- The items of a message, one after the other. -/
def addItems (self : MessageType) : List Item → MessageType
  | [] => self
  | item :: items => addItems (add_nested_message self item) items

end

/-- `deal` for the statements of a file. -/
def deal (self : File) : Statement → File
  | .enum v => { self with enum_type := self.enum_type ++ [v.proto] }
  | .extend v => { self with extension := self.extension ++ v.fields }
  | .message name items =>
    { self with message_type := self.message_type ++ [addItems (MessageType.new name) items] }
  | .option name value => { self with options := self.options.insert name value }
  | .importFile name => { self with dependency := self.dependency ++ [name] }
  | .package name => { self with package := some name }

/-- `fix`, for the file of a name. -/
def fix (filename : String) (r : List Statement) : File :=
  r.foldl deal ⟨filename, none, [], [], [], [], ∅⟩

/-! ## Names -/

/-- The type of a full name. -/
abbrev Names := String → Option FieldType

/-- `sbyte(n) == 46` -/
def isFull (n : String) : Bool := n.toList.head? == some '.'

/-- `[%w_]` -/
def isWord (c : Char) : Bool := c.isAlphanum || c == '_'

/-- `smatch(namespace,"(.*)%.[%w_]+$")` -/
def outer (ns : String) : Option String :=
  let word := ns.toList.reverse.takeWhile isWord
  match ns.toList.reverse.dropWhile isWord with
  | '.' :: rest => if word = [] then none else some (String.ofList rest.reverse)
  | _ => none

/-- The loop of `_match_name`. -/
def matchLoop (all : Names) (n : String) : Nat → String → Option String
  | 0, ns => if (all (ns ++ "." ++ n)).isSome then some (ns ++ "." ++ n) else none
  | fuel + 1, ns =>
    if (all (ns ++ "." ++ n)).isSome then some (ns ++ "." ++ n)
    else (outer ns).bind (matchLoop all n fuel)

/-- `assert(_match_name(namespace, n, all))` -/
def match_name (ns : Option String) (n : String) (all : Names) : Result String :=
  if isFull n then .ok n
  else
    match ns with
    | none => .error (some .concat_nil)
    | some ns =>
      match matchLoop all n ns.length ns with
      | none => .error (some .unresolved)
      | some name => .ok name

/-- `tostring`, of what is not `nil` or `false`. -/
def Value.tostring : Value → Option String
  | .str s => some s
  | .name s => some s
  | .id n => some (toString n)
  | .bool true => some "true"
  | .bool false => none

/-- The options of a field: `default` becomes `default_value`. -/
def fixOptions (field : Field) : Field :=
  match (field.options.lookup "default").bind Value.tostring with
  | none => field
  | some value =>
    { field with default_value := some value, options := field.options.erase "default" }

/-- `_fix_field` -/
def fix_field (ns : Option String) (all : Names) (field : Field) : Result Field :=
  match field.type_name with
  | none => .ok field
  | some type_name =>
    if type_name = "" then .ok { field with type_name := none }
    else do
      let full_name ← match_name ns type_name all
      .ok (fixOptions { field with type_name := some full_name, type := all full_name })

/-- `_fix_extension`, for one of them. -/
def fixExtendee (ns : Option String) (all : Names) (field : Field) : Result Field := do
  let extendee ← match_name ns (field.extendee.getD "") all
  fix_field ns all { field with extendee := some extendee }

def fix_extension (ns : Option String) (all : Names) (ext : List Field) : Result (List Field) :=
  ext.mapM (fixExtendee ns all)

/-- `_enum_fullname` and `_message_fullname`, the name. -/
def fullname (ns name : String) : String := if isFull name then name else ns ++ "." ++ name

/-- The fields of a message, if it has any (`msg.field or NULL`). -/
def fixFields (ns : String) (all : Names) : Option (List Field) → Result (Option (List Field))
  | none => .ok none
  | some l => do
    let l ← l.mapM (fix_field (some ns) all)
    .ok (some l)

mutual

/-- `_fix_message` -/
def fix_message (ns : String) (all : Names) : MessageType → Result MessageType
  | ⟨name, field, nested_type, enum_type, extension, extension_range⟩ => do
    let full := fullname ns name
    let field ← fixFields full all field
    let nested_type ← fixMessages full all nested_type
    let extension ← fix_extension (some full) all extension
    .ok ⟨name, field, nested_type, enum_type, extension, extension_range⟩

def fixMessages (ns : String) (all : Names) : List MessageType → Result (List MessageType)
  | [] => .ok []
  | msg :: msgs => do
    let msg ← fix_message ns all msg
    let msgs ← fixMessages ns all msgs
    .ok (msg :: msgs)

end

/-- `_fix_typename` -/
def fix_typename (all : Names) (file : File) : Result File := do
  let message_type ← fixMessages (file.package.elim "" fun package => "." ++ package.val) all
    file.message_type
  let extension ← fix_extension (file.package.map Typename.val) all file.extension
  .ok { file with message_type := message_type, extension := extension }

def enum_fullname (ns : String) (all : Names) (enum : ProtoEnum) : Names :=
  update all (fullname ns enum.name) (some .TYPE_ENUM)

mutual

/-- `_message_fullname` -/
def message_fullname (ns : String) : Names → MessageType → Names
  | all, ⟨name, _, nested_type, enum_type, _, _⟩ =>
    let full := fullname ns name
    let all := messageFullnames full (update all full (some .TYPE_MESSAGE)) nested_type
    enum_type.foldl (enum_fullname full) all

def messageFullnames (ns : String) : Names → List MessageType → Names
  | all, [] => all
  | all, msg :: msgs => messageFullnames ns (message_fullname ns all msg) msgs

end

/-- `_gen_fullname` -/
def gen_fullname (all : Names) (file : File) : Names :=
  let ns := file.package.elim "" fun package => "." ++ package.val
  file.enum_type.foldl (enum_fullname ns) (messageFullnames ns all file.message_type)

/-! ## Files -/

/-- `parser.cache_fields` -/
abbrev Cache := AList fun _ : String => ProtoLoader.Message

def Field.proto (field : Field) : ProtoValue := ⟨field.name, field.number⟩

/-- One message in the loop of `parser_one`. -/
def cacheMessage (cache : Cache) (m : MessageType) : Result Cache :=
  match m.field with
  | none => .error (some .ipairs_nil)
  | some field => .ok (cache.insert m.name (fields (field.map Field.proto)))

def parser_one (text : List Statement) (filename : String) (cache : Cache) :
    Result (File × Cache) := do
  let t := fix filename text
  let cache ← t.message_type.foldlM cacheMessage cache
  .ok (t, cache)

/-- What `parser.register` reads: the statements of a file, unless it is not there or the grammar
does not accept it. -/
abbrev Disk := String → Option (List Statement)

/-- One file in the loop of `parser.register`. -/
def readFile (disk : Disk) (path : String) : Names × List File × Cache → String →
    Result (Names × List File × Cache)
  | (all, files, cache), filename =>
    match disk (path ++ "/" ++ filename) with
    | none => .error (some .unread)
    | some text => do
      let (t, cache) ← parser_one text filename cache
      .ok (gen_fullname all t, files ++ [t], cache)

/-- What the module and `protobuf` keep. -/
structure State (Env : Type) where
  env : Env
  cache_fields : Cache

/-- `parser.register`, with `pb` for `pb.encode` and `pb.register`. -/
def register {Env : Type} (pb : Env → List File → Option Env) (disk : Disk)
    (fileset : List String) (path : String) (s : State Env) : Result (List File × State Env) := do
  let (all, files, cache) ← fileset.foldlM (readFile disk path) (fun _ => none, [], s.cache_fields)
  let files ← files.mapM (fix_typename all)
  match pb s.env files with
  | none => .error (some .protobuf)
  | some env => .ok (files, ⟨env, cache⟩)

end SkynetHotfix.Pbc
