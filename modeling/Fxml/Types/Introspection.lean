import Fxml.Text.Case
import Fxml.Types.ClassModel
import Fxml.Types.Source

/-! Reading type descriptors off Python classes. -/

namespace Fxml.ClassWorld

/-- The classes of the language itself that a textual annotation may name. -/
def annotationBuiltins : List String :=
  ["str", "int", "float", "bool", "object", "bytes", "list", "dict", "Exception"]

def unquote (text : String) : String :=
  match text.toList with
  | q :: rest =>
    if (q == '"' || q == '\'') && !rest.isEmpty && rest.getLast? = some q then
      String.ofList rest.dropLast
    else text
  | [] => text

/-- The type that a name in an annotation denotes, seen from a module. -/
def annotatedName (w : ClassWorld) (module : Option ModuleModel) (text : String) : String :=
  match (text.toList.splitOn '.').map String.ofList with
  | [] => "object"
  | first :: attrs =>
    let start :=
      match module.bind (w.moduleClass? · first) with
      | some name => some name
      | none =>
        let shadowed := module.any (·.values.contains first)
        if !shadowed && annotationBuiltins.contains first then some first else none
    (w.attributePath? start attrs).getD "object"

/-- Reads a textual annotation. `fuel` bounds the depth of its brackets. -/
def readAnnotation (w : ClassWorld) (module : Option ModuleModel) : Nat → String → String
  | 0, _ => "object"
  | fuel + 1, text =>
    match (TypeName.splitTopLevel (unquote text) '|').filter (· != "None") with
    | [text] =>
      let read := readAnnotation w module fuel
      match TypeName.inside? "Optional[" text with
      | some inner => read inner
      | none =>
        match TypeName.inside? "list[" text <|> TypeName.inside? "List[" text with
        | some item => TypeName.listOf (read item)
        | none =>
          match TypeName.inside? "dict[" text <|> TypeName.inside? "Dict[" text with
          | some inner =>
            match TypeName.splitTopLevel inner ',' with
            | [key, value] => TypeName.mapOf (read key) (read value)
            | _ => "object"
          | none =>
            if TypeName.isPrimitive text then text
            else if text.toList.contains '[' || text == "Any" then "object"
            else w.annotatedName module text
    | _ => "object"

def textType (w : ClassWorld) (module : Option ModuleModel) (text : String) : String :=
  w.readAnnotation module (text.length + 1) (Text.strip text)

mutual

/-- The type name of an annotation seen from a module. A text is read only on its own or as an item
of a collection, not as a member of a union.
-/
def typeOf (w : ClassWorld) (module : Option ModuleModel) : TypeHint → String
  | .missing => "object"
  | .text s => w.textType module s
  | .type name => name
  | .list item => TypeName.listOf (typeOf w module item)
  | .dict key value => TypeName.mapOf (typeOf w module key) (typeOf w module value)
  | .union members =>
    match (unionTypes w module members).eraseDups.map Prod.snd with
    | [some type] => type
    | [none] => "NoneType"
    | [some type, none] | [none, some type] => type
    | _ => "object"
  | .classVar _ => "object"
  | .any => "typing.Any"

/-- The members of a union with their type names; an absent value has none. -/
def unionTypes (w : ClassWorld) (module : Option ModuleModel)
    : List TypeHint → List (TypeHint × Option String)
  | [] => []
  | a :: rest =>
    let here := match a with
      | .missing => [(.missing, none)]
      | .text s => [(.text s, some "object")]
      | .union members => unionTypes w module members
      | a => [(a, some (typeOf w module a))]
    here ++ unionTypes w module rest

end

def isClassVar : TypeHint → Bool
  | .text s => s.startsWith "ClassVar" || s.startsWith "typing.ClassVar"
  | .classVar _ => true
  | _ => false

def isHidden (name : String) : Bool := name.startsWith "_"

def isObservable : ClassMember → Bool
  | .observable .. | .observableList .. | .event .. => true
  | _ => false

def signature (w : ClassWorld) (module : Option ModuleModel) (params : List FunctionParam)
    : Signature where
  params := (params.filter (·.kind == .positional)).map fun p =>
    ⟨p.name, w.typeOf module p.hint, p.hasDefault⟩
  varargs := params.any (·.kind == .varargs)

/-- Takes a static or class method into a descriptor: a reader of text, a setter of an attached
property, or a factory when no argument is required.
-/
def addStatic (w : ClassWorld) (module : Option ModuleModel) (d : TypeDescriptor)
    (name : String) (params : List FunctionParam) (returns : TypeHint) (isStatic : Bool)
    : TypeDescriptor :=
  let required := params.filter fun p =>
    !p.hasDefault && p.kind != .varargs && p.kind != .keywordArgs
  if name = "value_of" then { d with valueOf := true }
  else
    match isStatic && name.startsWith "set_", params with
    | true, [_, value] =>
      let property := String.ofList (name.toList.drop 4)
      { d with staticProperties := d.staticProperties.put property (w.typeOf module value.hint) }
    | _, _ =>
      if required.isEmpty then
        { d with factories := d.factories.put name (w.typeOf module returns) }
      else d

def addMember (w : ClassWorld) (module : Option ModuleModel) (hints : Table TypeHint)
    (isEnum : Bool) (d : TypeDescriptor) (entry : String × ClassMember)
    : TypeDescriptor :=
  let (name, member) := entry
  let put (p : PropertyInfo) : TypeDescriptor := { d with properties := d.properties.put name p }
  if isHidden name then d
  else
    match member with
    | .observable default type readOnly =>
      let type :=
        match type, hints.get? name, default with
        | .missing, some hint, _ => w.typeOf module hint
        | .missing, none, some default => default
        | .missing, none, none => "object"
        | type, _, _ => w.typeOf module type
      put ⟨name, type, !readOnly, true, .value⟩
    | .observableList item =>
      put ⟨name, TypeName.listOf (w.typeOf module item), false, false, .list⟩
    | .event type =>
      { d with
        events := d.events.put name (w.typeOf module type)
        properties := d.properties.erase name }
    | .property returns getter setter =>
      let type := if getter then w.typeOf module returns else "object"
      let kind : PropertyKind :=
        if setter then .value
        else if (TypeName.listItem? type).isSome then .list
        else if (TypeName.mapTypes? type).isSome then .map
        else .value
      put ⟨name, type, setter, false, kind⟩
    | .staticMethod params returns => w.addStatic module d name params returns true
    | .classMethod params returns => w.addStatic module d name params returns false
    | .method params => { d with methods := d.methods.put name [w.signature module params] }
    | .constant type =>
      if Text.isUpperText name && !isEnum then { d with constants := d.constants.put name type }
      else d
    | .callable => d

/-- Takes a class body into a descriptor: annotations first, then the attributes in order. -/
def addClass (w : ClassWorld) (isEnum : Bool) (d : TypeDescriptor) (c : ClassInfo)
    : TypeDescriptor :=
  let module := w.modules.get? c.module
  let declared := c.hints.filter fun (name, hint) =>
    !isHidden name && !isClassVar hint && !(c.members.get? name).any isObservable
  let d := declared.foldl (fun d (name, hint) =>
    { d with properties := d.properties.put name { name, type := w.typeOf module hint } }) d
  c.members.foldl (w.addMember module c.hints isEnum) d

def enumParams : List Param :=
  ⟨"value", "object", false⟩ ::
    ["names", "module", "qualname", "type", "start", "boundary"].map fun name =>
      ⟨name, "object", true⟩

/-- The parameters of a class: those of the first constructor in the resolution order. -/
def constructorParams (w : ClassWorld) (name : String) (order : List String) : List Param :=
  let module := (w.classes.get? name).bind fun c => w.modules.get? c.module
  let own (ancestor : String) : Option (List Param) :=
    match w.classes.get? ancestor with
    | some c => c.init.map fun params =>
        (params.filter fun p => p.kind != .varargs && p.kind != .keywordArgs).map fun p =>
          ⟨p.name, w.typeOf module p.hint, p.hasDefault⟩
    | none =>
      match ancestor with
      | "list" => some [⟨"iterable", "object", true⟩]
      | "dict" => some []
      | "float" => some [⟨"x", "object", true⟩]
      | _ => none
  (order.findSome? own).getD []

/-- The descriptor of a class. Later classes in the resolution order come first, so nearer
declarations replace farther ones.
-/
def describeClass (w : ClassWorld) (name : String) : TypeDescriptor :=
  let order := w.orderOf name
  let ancestors := order.filterMap w.classes.get?
  let isEnum := order.contains "enum.Enum"
  let blank : TypeDescriptor :=
    match w.classes.get? name with
    | some c => { TypeDescriptor.blank name with module := c.module }
    | none => { TypeDescriptor.blank name with module := builtinModule }
  let members := match w.classes.get? name with
    | some c => if isEnum then c.constants else []
    | none => []
  let d := ancestors.reverse.foldl (w.addClass isEnum) { blank with members }
  let builder := match ancestors.findSome? fun c => c.builder.map fun b => (c, b) with
    | some (c, b) =>
      let qualified := ClassModel.baseName c.module b
      if w.classes.contains qualified then some qualified else none
    | none => none
  let itemType := match ancestors.findSome? (·.itemType) with
    | some hint => w.typeOf (w.modules.get? blank.module) hint
    | none => "object"
  { d with
    bases := order.drop 1
    defaultProperty := (ancestors.findSome? (·.defaultProperty)).getD none
    builder
    copyable := (ancestors.findSome? (·.copyable)).getD true
    collection :=
      if order.contains "list" then some .list
      else if order.contains "dict" then some .map
      else none
    itemType
    constructors := [⟨if isEnum then enumParams else w.constructorParams name order⟩] }
where
  builtinModule : String :=
    match name with
    | "enum.Enum" => "enum"
    | "typing.Any" => "typing"
    | _ => "builtins"

def source (w : ClassWorld) : TypeSource where
  hasType name := (w.lookup? name).isSome
  describe name :=
    if TypeName.isPrimitive name then some (TypeDescriptor.primitive name)
    else (w.lookup? name).map w.describeClass

end Fxml.ClassWorld
