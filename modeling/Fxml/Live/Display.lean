import Fxml.Live.Iteration

/-! Texts of values: as they are shown inside others, and as they are written by themselves. -/

namespace Fxml.Live

def scalarText : Scalar → String
  | .null => "None"
  | .bool b => if b then "True" else "False"
  | .int n => toString n
  | .float x => Number.floatText x
  | .text s => Text.shown s

def bytesText (data : List UInt8) : String :=
  let quote := if data.contains 0x27 && !data.contains 0x22 then '"' else '\''
  let char (b : UInt8) : List Char :=
    let c := Char.ofNat b.toNat
    if c == quote || c == '\\' then ['\\', c]
    else if c == '\t' then ['\\', 't']
    else if c == '\n' then ['\\', 'n']
    else if c == '\r' then ['\\', 'r']
    else if b < 0x20 || b ≥ 0x7f then '\\' :: 'x' :: Text.hexDigits 2 b.toNat
    else [c]
  String.ofList ('b' :: quote :: (data.flatMap char ++ [quote]))

namespace World

def typeText (w : World) (t : TypeRef) : String :=
  (if w.isEnumeration t then "<enum " else "<class ") ++ Text.shown (w.typeRefName t) ++ ">"

/-- The text that shows a value without elements whose type says nothing about it. -/
def plainText (w : World) (v : Value) : String :=
  match v with
  | .builtin b =>
    let what := match b.kind with
      | .slot => "slot wrapper"
      | .method => "method"
      | .field | .memberField => "attribute"
      | _ => "function"
    "<" ++ what ++ " '" ++ b.name ++ "' of '" ++ b.owner.name ++ "' objects>"
  | _ => "<" ++ w.typeName v ++ " object>"

end World

def requireText (result : Value) : Action String := do
  match (← get).text? result with
  | some s => pure s
  | none => throw .wrongType

/-- Writes a collection out, unless it is being written out already. -/
def writingOut (id : ObjectId) (again : String) (write : Action String) : Action String := do
  let outer := (← get).inWriting
  if outer.contains id then return again
  modify fun w => { w with inWriting := id :: outer }
  let text ← try write
    catch e =>
      modify fun w => { w with inWriting := outer }
      throw e
  modify fun w => { w with inWriting := outer }
  return text

def joinTexts (shown : Value → Action String) (items : List Value) : Action String := do
  return ", ".intercalate (← items.mapM shown)

def joinEntries (shown : Value → Action String) (entries : List Entry) : Action String := do
  let texts ← entries.mapM fun e => do
    let key ← shown e.key
    return key ++ ": " ++ (← shown e.value)
  return ", ".intercalate texts

/-- The text that shows an object whose class does not say how, given how elements are shown. -/
def objectText (shown : Value → Action String) (id : ObjectId) (o : Object) : Action String := do
  let w ← get
  let v := Value.object id
  match o.body with
  | .scalar s => return scalarText s
  | .bytes data => return bytesText data
  | .list items => writingOut id "[...]" do return "[" ++ (← joinTexts shown items) ++ "]"
  | .tuple items => writingOut id "(...)" do
    match items with
    | [item] => return "(" ++ (← shown item) ++ ",)"
    | _ => return "(" ++ (← joinTexts shown items) ++ ")"
  | .dict entries => writingOut id "\x7b...\x7d" do
    let text := "\x7b" ++ (← joinEntries shown entries) ++ "\x7d"
    return if o.type == .basic .mapping then "mappingproxy(" ++ text ++ ")" else text
  | .view kind dict => writingOut id "..." do
    let items ← ((w.entries? (.object dict)).getD []).mapM kind.element
    return w.typeName v ++ "([" ++ (← joinTexts shown items) ++ "])"
  | .slice start stop step => return "slice(" ++ (← joinTexts shown [start, stop, step]) ++ ")"
  | .parameterized t args =>
    return w.typeRefName t ++ "[" ++ (← joinTexts shown args) ++ "]"
  | .property p =>
    let name ← requireText p.name
    return "Property(" ++ name ++ "=" ++ (← shown p.value) ++ ")"
  | _ => match o.type with
    | .basic .event =>
      let name ← requireText ((w.own? v "name").getD .null)
      return "Event(" ++ name ++ ")"
    | .basic .listChange =>
      let added ← shown ((w.own? v "added").getD .null)
      return "ListChange(added=" ++ added ++ ", removed="
        ++ (← shown ((w.own? v "removed").getD .null)) ++ ")"
    | t =>
      if w.isEnumeration t then
        let name ← requireText ((w.own? v "_name_").getD .null)
        return "<" ++ w.typeRefName t ++ "." ++ name ++ ": "
          ++ (← shown ((w.own? v "_value_").getD .null)) ++ ">"
      else return w.plainText v

/-- The text that shows a value, with a bound on how deeply values are nested. -/
def shownWithin : Nat → Value → Action String
  | 0, _ => throw .tooDeep
  | depth + 1, v => do
    let w ← get
    match v, w.object? v with
    | .scalar s _, _ => return scalarText s
    | .notImplemented, _ => return "NotImplemented"
    | .type t, _ => return w.typeText t
    | .object id, some o => match ← callOverride? v "__repr__" [] with
      | some result => requireText result
      | none => objectText (shownWithin depth) id o
    | _, _ => return w.plainText v

def shown (v : Value) : Action String := shownWithin nestingLimit v

/-- The text that a value is written as, as a value; texts are written as they are. -/
def displayValue (v : Value) : Action Value := do
  match v with
  | .scalar (.text _) _ => pure v
  | .scalar s _ => createText (scalarText s)
  | _ =>
    match ← callOverride? v "__str__" [] with
    | some result => do
      discard (requireText result)
      pure result
    | none =>
      let w ← get
      match w.text? v, w.own? v "_name_" with
      | some s, _ => createText s
      | none, some name =>
        if w.isEnumeration (w.typeOf v) then
          createText (w.typeName v ++ "." ++ (← requireText name))
        else createText (← shown v)
      | none, none => createText (← shown v)

def display (v : Value) : Action String := do requireText (← displayValue v)

end Fxml.Live
