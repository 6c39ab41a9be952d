import Fxml.Document.Basic
import Fxml.Document.Name
import Fxml.Expr.Value
import Fxml.Markup.Token
import Fxml.Text.Case
import Fxml.Xml.Reference

/-! Why markup is no document. -/

namespace Fxml

inductive DocumentCause where
  | markup (cause : Xml.Cause)
  | unknownInstruction (target : String)
  | invalidImport (data : String)
  | invalidCompileFlag (data : String)
  | invalidController (data : String)
  | invalidExport (name : String)
  | undeclaredPrefix (name : String)
  | scriptElement
  | unknownElement (tag : String)
  | invalidRoot (tag : String)
  | invalidName (tag : String)
  | severalOrigins
  | unknownFxAttribute (key : String)
  | constantWithAttributes
  | nestedRoot
  | rootWithoutType
  | inclusionAsRoot
  | defineWithAttributes
  | propertyInDefine
  | missingSource (tag : String)
  | referenceWithId
  | propertyWithFxAttributes
  | propertyWithStatics
  | staticPropertyWithAttributes
  | nestedController
  | invalidId (id : String)
  | unknownFxAttributeOn (key tag : String)
  | unknownAttributeOn (name tag : String)
  | notEmpty (tag : String)
deriving DecidableEq

namespace DocumentCause

def message : DocumentCause → String
  | markup cause => cause.message
  | unknownInstruction target => "unknown processing instruction <?" ++ target ++ "?>"
  | invalidImport data => "invalid import '" ++ data ++ "'"
  | invalidCompileFlag data => "compile expects true or false, got '" ++ data ++ "'"
  | invalidController data => "invalid controller type '" ++ data ++ "'"
  | invalidExport name => "invalid exported id '" ++ name ++ "'"
  | undeclaredPrefix name => "undeclared namespace prefix '" ++ name ++ "'"
  | scriptElement => "fx:script is not supported"
  | unknownElement tag => "unknown element <" ++ tag ++ ">"
  | invalidRoot tag => "invalid root element <" ++ tag ++ ">"
  | invalidName tag => "invalid element name <" ++ tag ++ ">"
  | severalOrigins => "at most one of fx:value, fx:constant, fx:factory"
  | unknownFxAttribute key => "unknown attribute fx:" ++ key
  | constantWithAttributes => "fx:constant elements take no other attributes"
  | nestedRoot => "fx:root must be the root element"
  | rootWithoutType => "fx:root requires a type attribute"
  | inclusionAsRoot => "fx:include cannot be the root element"
  | defineWithAttributes => "fx:define takes no attributes"
  | propertyInDefine => "property elements are not allowed in fx:define"
  | missingSource tag => "<" ++ tag ++ "> requires a source attribute"
  | referenceWithId => "fx:reference cannot declare an fx:id"
  | propertyWithFxAttributes => "property elements take no fx: attributes"
  | propertyWithStatics => "property elements take no static properties"
  | staticPropertyWithAttributes => "static property elements take no attributes"
  | nestedController => "fx:controller is only allowed on the root element"
  | invalidId id => "invalid fx:id '" ++ id ++ "'"
  | unknownFxAttributeOn key tag => "unknown attribute fx:" ++ key ++ " on <" ++ tag ++ ">"
  | unknownAttributeOn name tag => "unknown attribute '" ++ name ++ "' on <" ++ tag ++ ">"
  | notEmpty tag => "<" ++ tag ++ "> must be empty"

end DocumentCause

structure DocumentError where
  cause : DocumentCause
  pos : Position
deriving DecidableEq

def DocumentError.toFault (e : DocumentError) : Fault :=
  ⟨.malformedDocument, e.cause.message, e.pos⟩

end Fxml

/-! Reading the parts of a document. The name of an element tells what node it is: with the prefix of
the markup language a control element, in lower case a property, with a dot before a lowercase
name a static property, and otherwise an object. -/

namespace Fxml.Document

/-- What has been read so far: the header, and how many nodes are complete. -/
structure State where
  header : Header := {}
  completed : Nat := 0

abbrev Reading : Type → Type := StateT State (Except (Refusal DocumentError))

def fail {α : Type} (cause : DocumentCause) (pos : Position) : Reading α :=
  throw (.fault ⟨cause, pos⟩)

def halt {α : Type} (reason : Halt) : Reading α := throw (.halt reason)

def modifyHeader (f : Header → Header) : Reading Unit :=
  modify fun s => { s with header := f s.header }

/-- The rank of a node that is complete now. -/
def complete : Reading Nat := do
  let n := (← get).completed + 1
  modify fun s => { s with completed := n }
  return n

/-- Addresses that stand for the markup language itself start like this. -/
def fxNamespace : String := "http://javafx.com/fxml"

def isDeclaration (name : String) : Bool := name == "xmlns" || name.startsWith "xmlns:"

/-- The prefix that a namespace declaration is for; the default namespace has an empty one. -/
def declaredPrefix (name : String) : String := String.ofList (name.toList.drop 6)

/-- The prefixes of the markup language after a declaration: an address of the language adds the
prefix, any other address takes it away.
-/
def declare (prefixes : List String) (a : Markup.RawAttribute) : List String :=
  let p := declaredPrefix a.name
  if p = "" then prefixes
  else if a.value.startsWith fxNamespace then p :: prefixes
  else prefixes.filter (· != p)

def readInstruction (i : Markup.Instruction) : Reading Unit :=
  match i.target with
  | "import" => do
    let wildcard := i.data.endsWith ".*"
    let name := if wildcard then (i.data.dropEnd 2).toString else i.data
    if Name.isQualified name then
      modifyHeader fun h => { h with imports := h.imports ++ [⟨i.pos, name, wildcard⟩] }
    else fail (.invalidImport i.data) i.pos
  | "language" => modifyHeader fun h => { h with language := some i.data }
  | "compile" =>
    match Text.lower i.data with
    | "true" => modifyHeader fun h => { h with compile := true }
    | "false" => modifyHeader fun h => { h with compile := false }
    | _ => fail (.invalidCompileFlag i.data) i.pos
  | "controller" => do
    if Name.isQualified i.data then
      modifyHeader fun h =>
        if h.controller.isNone then
          { h with controller := some i.data, controllerPos := some i.pos }
        else h
    else fail (.invalidController i.data) i.pos
  | "export" => do
    let names := Text.splitBy (fun c => c == ',' || Text.isBlank c) [] i.data.toList
    for name in names.map String.ofList do
      if Name.isId name then modifyHeader fun h => { h with exports := h.exports ++ [name] }
      else fail (.invalidExport name) i.pos
  | target => fail (.unknownInstruction target) i.pos

/-- Reads a value; a malformed one is noted and left out. -/
def readValue (raw : String) (pos : Position) : Reading (Option Value) :=
  match Value.read raw.toList pos true with
  | .ok value => return some value
  | .error (.fault e) => do
    modifyHeader fun h => { h with expressionErrors := h.expressionErrors ++ [e] }
    return none
  | .error (.halt reason) => halt reason

/-- Reads an attribute outside the markup language's namespace. In a control element it is plain
text.
-/
def readAttribute (control : Bool) (raw : Markup.RawAttribute) : Reading Attribute := do
  let (owner, name) :=
    if Name.isStaticProperty raw.name then
      let (owner, name) := Name.splitLast raw.name
      (some owner, name)
    else (none, raw.name)
  let value ←
    if control then pure (some (.text raw.valuePos raw.value))
    else readValue raw.value raw.valuePos
  return ⟨raw.pos, owner, name, raw.value, raw.valuePos, value⟩

/-- The attributes of a tag: those of the markup language by their local names, and the others. -/
abbrev Attributes : Type := Table Markup.RawAttribute × List Attribute

/-- Takes one attribute of a tag. The controller goes to the header and only the root may name it.
-/
def readTagAttribute (prefixes : List String) (tag : Markup.Tag) (isRoot control : Bool)
    (found : Attributes) (raw : Markup.RawAttribute)
    : Reading Attributes := do
  if isDeclaration raw.name then return found
  match Name.splitPrefix raw.name with
  | (some p, name) =>
    if !prefixes.contains p then fail (.undeclaredPrefix p) tag.pos
    else if name = "controller" then
      if isRoot then
        modifyHeader fun h =>
          { h with controller := some raw.value, controllerPos := some raw.valuePos }
        return found
      else fail .nestedController tag.pos
    else return (found.1.put name raw, found.2)
  | (none, _) => return (found.1, found.2 ++ [← readAttribute control raw])

def readAttributes (prefixes : List String) (tag : Markup.Tag) (isRoot control : Bool)
    : Reading Attributes :=
  tag.attributes.foldlM (readTagAttribute prefixes tag isRoot control) ([], [])

def takeId (fx : Table Markup.RawAttribute) : Reading (Option String × Table Markup.RawAttribute) :=
  match fx.get? "id" with
  | none => return (none, fx)
  | some raw =>
    if Name.isId raw.value then return (some raw.value, fx.erase "id")
    else fail (.invalidId raw.value) raw.valuePos

def takePlain (name : String) : List Attribute → Option Attribute × List Attribute
  | [] => (none, [])
  | a :: rest =>
    if a.name == name && a.owner.isNone then (some a, rest)
    else
      let (found, others) := takePlain name rest
      (found, a :: others)

/-- Refuses attributes of the markup language that are left over. -/
def rejectFx (tag : Markup.Tag) : Table Markup.RawAttribute → Reading Unit
  | [] => return ()
  | (key, _) :: _ => fail (.unknownFxAttributeOn key tag.name) tag.pos

def rejectPlain (tag : Markup.Tag) : List Attribute → Reading Unit
  | [] => return ()
  | a :: _ => fail (.unknownAttributeOn a.name tag.name) a.pos

/-- An element of which only the start tag has been read. -/
inductive Opening where
  | object (origin : Origin) (type : String) (id : Option String) (attributes : List Attribute)
  | constant (member : String) (id : Option String)
  | property (attributes : List Attribute)
  | staticProperty (owner name : String)
  | define
  | inclusion (source : String) (id resources : Option String)
  | reference (source : String) (id : Option String)
  | copy (source : String) (id : Option String)

def openObject (prefixes : List String) (tag : Markup.Tag) (isRoot : Bool) : Reading Opening := do
  let (fx, attributes) ← readAttributes prefixes tag isRoot false
  let (id, fx) ← takeId fx
  let origins := ["value", "constant", "factory"]
  if (origins.filter fx.contains).length > 1 then fail .severalOrigins tag.pos
  match fx.keys.find? fun key => !origins.contains key with
  | some key => fail (.unknownFxAttribute key) tag.pos
  | none =>
    match fx.get? "constant" with
    | some constant =>
      if !attributes.isEmpty then fail .constantWithAttributes tag.pos
      return .constant constant.value id
    | none =>
      let origin : Origin :=
        match fx.get? "value", fx.get? "factory" with
        | some raw, _ => .value raw.value
        | none, some raw => .factory raw.value
        | none, none => .construct
      return .object origin tag.name id attributes

/-- Reads the tag that stands for a root object supplied by the caller. -/
def openRoot (prefixes : List String) (tag : Markup.Tag) : Reading Opening := do
  let (fx, attributes) ← readAttributes prefixes tag true false
  match takePlain "type" attributes with
  | (none, _) => fail .rootWithoutType tag.pos
  | (some type, attributes) =>
    let (id, fx) ← takeId fx
    rejectFx tag fx
    return .object .root type.raw id attributes

def openDefine (tag : Markup.Tag) : Reading Opening := do
  if !tag.attributes.isEmpty then fail .defineWithAttributes tag.pos
  return .define

/-- Reads a tag that names a source: an inclusion, a reference or a copy. -/
def openSourced (prefixes : List String) (tag : Markup.Tag) (name : String) : Reading Opening := do
  let (fx, attributes) ← readAttributes prefixes tag false true
  let (id, fx) ← takeId fx
  rejectFx tag fx
  match takePlain "source" attributes with
  | (none, _) => fail (.missingSource tag.name) tag.pos
  | (some source, attributes) =>
    if source.raw = "" then fail (.missingSource tag.name) tag.pos
    else if name = "include" then
      let (resources, attributes) := takePlain "resources" attributes
      let (_, attributes) := takePlain "charset" attributes
      rejectPlain tag attributes
      return .inclusion source.raw id (resources.map (·.raw))
    else
      rejectPlain tag attributes
      return if name = "reference" then .reference source.raw id else .copy source.raw id

def openControl (prefixes : List String) (tag : Markup.Tag) (name : String) (isRoot : Bool)
    : Reading Opening :=
  match name with
  | "script" => fail .scriptElement tag.pos
  | "root" => if isRoot then openRoot prefixes tag else fail .nestedRoot tag.pos
  | "define" => if isRoot then fail (.invalidRoot tag.name) tag.pos else openDefine tag
  | "include" => if isRoot then fail .inclusionAsRoot tag.pos else openSourced prefixes tag name
  | "reference" | "copy" =>
    if isRoot then fail (.invalidRoot tag.name) tag.pos else openSourced prefixes tag name
  | _ => fail (.unknownElement tag.name) tag.pos

def openProperty (prefixes : List String) (tag : Markup.Tag) : Reading Opening := do
  let (fx, attributes) ← readAttributes prefixes tag false false
  if !fx.isEmpty then fail .propertyWithFxAttributes tag.pos
  if attributes.any (·.owner.isSome) then fail .propertyWithStatics tag.pos
  return .property attributes

def openStaticProperty (tag : Markup.Tag) : Reading Opening := do
  if !tag.attributes.isEmpty then fail .staticPropertyWithAttributes tag.pos
  let (owner, name) := Name.splitLast tag.name
  return .staticProperty owner name

/-- Reads the start tag of an element of any kind. -/
def openElement (prefixes : List String) (tag : Markup.Tag) (isRoot : Bool) : Reading Opening :=
  match Name.splitPrefix tag.name with
  | (some p, name) =>
    if prefixes.contains p then openControl prefixes tag name isRoot
    else fail (.undeclaredPrefix p) tag.pos
  | (none, name) =>
    if Name.isProperty name then
      if isRoot then fail (.invalidRoot name) tag.pos else openProperty prefixes tag
    else if Name.isStaticProperty name then
      if isRoot then fail (.invalidRoot name) tag.pos else openStaticProperty tag
    else if Name.isQualified name then openObject prefixes tag isRoot
    else fail (.invalidName name) tag.pos

abbrev Content : Type := List Node × Option Value

def rejectContent (tag : Markup.Tag) (content : Content) : Reading Unit :=
  if !content.1.isEmpty || content.2.isSome then fail (.notEmpty tag.name) tag.pos else return ()

/-- The node of an element that has been read up to its end tag. -/
def closeElement (tag : Markup.Tag) (opening : Opening) (content : Content) : Reading Node :=
  let (children, text) := content
  match opening with
  | .object origin type id attributes =>
    return .object tag.pos (← complete) origin type id attributes children text
  | .constant member id => do
    rejectContent tag content
    return .constant tag.pos (← complete) tag.name member id
  | .property attributes =>
    return .property tag.pos (← complete) tag.name attributes children text
  | .staticProperty owner name =>
    return .staticProperty tag.pos (← complete) owner name children text
  | .define => do
    let isProperty : Node → Bool
      | .property .. | .staticProperty .. => true
      | _ => false
    match children.find? isProperty with
    | some child => fail .propertyInDefine child.pos
    | none => return .define tag.pos (← complete) children
  | .inclusion source id resources => do
    rejectContent tag content
    return .inclusion tag.pos (← complete) source id resources
  | .reference source id => do
    rejectContent tag content
    if id.isSome then fail .referenceWithId tag.pos
    return .reference tag.pos (← complete) source
  | .copy source id => do
    rejectContent tag content
    return .copy tag.pos (← complete) source id

/-- Whether a reference stands for a space, or for nothing. -/
def isSpaceOrNone : Option Text.Point → Bool
  | none => true
  | some (.char c) => Xml.isSpace c
  | some (.half _) => false

/-- The place of the first character of a text run that is not blank, found in the text as it
stands in the source. After a reference without its semicolon the search starts again.
-/
def firstVisible (pos : Position) : List Char → Except Halt Position
  | [] => .ok pos
  | '\r' :: '\n' :: rest => firstVisible ⟨pos.line + 1, 1⟩ rest
  | '&' :: rest =>
    let body := rest.takeWhile (· != ';')
    if rest.length ≤ body.length then .error .endless
    else
      match Xml.readReference (String.ofList ('&' :: body ++ [';'])) with
      | .error (.tooManyDigits count) => .error (.unreadNumber count)
      | .error _ => .error .noCharacter
      | .ok found =>
        if isSpaceOrNone found then
          firstVisible (pos.right (body.length + 2)) (rest.drop (body.length + 1))
        else .ok pos
  | c :: rest =>
    if c = '\n' || c = '\r' then firstVisible ⟨pos.line + 1, 1⟩ rest
    else if Xml.isSpace c then firstVisible (pos.right 1) rest
    else .ok pos
termination_by cs => cs.length
decreasing_by all_goals simp only [List.length_cons, List.length_drop] <;> omega

/-- Reads a text run: a literal section as it is, other text with its blanks collapsed, and blank
text not at all.
-/
def readText (run : Markup.TextRun) : Reading (Option Value) :=
  if run.cdata then return some (.text run.pos run.value)
  else
    let text := Text.collapseBlanks run.value
    if text = "" then return none
    else
      match firstVisible run.pos run.raw.toList with
      | .ok pos => readValue text pos
      | .error reason => halt reason

end Fxml.Document
