import Fxml.Live.Compare

/-! Dictionaries of values. A key is found among those of its code, so that numbers of every kind that
are equal are one key.
-/

namespace Fxml.Live

def entryOf? (entries : List Entry) (key : Value) : Action (Option Entry) := do
  findEntry matching (← codeOf key) key entries

def lookup? (entries : List Entry) (key : Value) : Action (Option Value) := do
  return (← entryOf? entries key).map (·.value)

def replaceEntry (entries : List Entry) (entry : Entry) (value : Value) : List Entry :=
  entries.map fun e =>
    if e.code == entry.code && e.key.identical entry.key then { e with value := value } else e

def eraseEntry (entries : List Entry) (entry : Entry) : List Entry :=
  entries.eraseP fun e => e.code == entry.code && e.key.identical entry.key

/-- Gives a key a value; a key that is there stays as it is. -/
def putEntry (entries : List Entry) (key value : Value) : Action (List Entry) := do
  let code ← codeOf key
  match ← findEntry matching code key entries with
  | some entry => return replaceEntry entries entry value
  | none => return entries ++ [⟨code, key, value⟩]

def requireEntries (v : Value) : Action (ObjectId × List Entry) := do
  match v, (← get).entries? v with
  | .object id, some entries => pure (id, entries)
  | _, _ => throw .wrongType

def putKey (dict key value : Value) : Action Unit := do
  let (_, entries) ← requireEntries dict
  let after ← putEntry entries key value
  let (id, _) ← requireEntries dict
  setBody id (.dict after)

def takeKey? (dict key : Value) : Action (Option Value) := do
  let (id, entries) ← requireEntries dict
  match ← entryOf? entries key with
  | some entry =>
    setBody id (.dict (eraseEntry entries entry))
    return some entry.value
  | none => return none

/-- The value of a key of a dictionary. A key that is missing is left to the class of the
dictionary, if it says what to do then; texts by key have their own failure.
-/
def valueOfKey (dict key : Value) : Action Value := do
  let (_, entries) ← requireEntries dict
  match ← lookup? entries key with
  | some value => pure value
  | none =>
    let w ← get
    match w.typeOf dict with
    | .basic .dict => throw .noKey
    | _ => match w.member? (w.typeOf dict) "__missing__" with
      | some (.builtin _) => match w.text? key with
        | some name => throw (.resource (.missing name))
        | none => throw .noKey
      | some member => callMember dict member [key]
      | none => throw .noKey

/-! Going through what a value holds, one element after the other. -/

def createCharacters (s : String) : Action (List Value) :=
  s.toList.mapM fun c => createChars [c]

def ViewKind.element (kind : ViewKind) (e : Entry) : Action Value :=
  match kind with
  | .keys => pure e.key
  | .values => pure e.value
  | .items => createTuple [e.key, e.value]

/-- The elements of a value of a basic kind, if it has elements. What an iterator gives it gives only
once.
-/
def basicElements? (v : Value) : Action (Option (List Value)) := do
  let w ← get
  match w.text? v with
  | some s => some <$> createCharacters s
  | none => match v, w.body? v with
    | _, some (.list items) | _, some (.tuple items) => return some items
    | _, some (.dict entries) => return some (entries.map (·.key))
    | _, some (.bytes data) => return some (data.map fun b => .small b.toNat)
    | _, some (.view kind dict) =>
      some <$> ((w.entries? (.object dict)).getD []).mapM kind.element
    | .object id, some (.iterator rest) => do
      setBody id (.iterator [])
      return some rest
    | _, _ => return (w.enumMembers? v).map (·.values)

inductive ElementSource where
  | present (items : List Value)
  | iterator (v next : Value)
  | positions (v getter : Value)

def sourceOf (v : Value) : Action ElementSource := do
  let w ← get
  let basicSource (v : Value) : Action ElementSource := do
    match ← basicElements? v with
    | some items => pure (.present items)
    | none => throw .wrongType
  match w.override? v "__iter__", w.override? v "__getitem__" with
  | some member, _ =>
    let iterator ← callMember v member []
    let w ← get
    match w.declaration? (w.typeOf iterator) "__next__" with
    | some (.made _, next) => pure (.iterator iterator next)
    | some _ => basicSource iterator
    | none => throw .wrongType
  | none, some getter => if w.supports v "__iter__" then basicSource v else pure (.positions v getter)
  | none, none => basicSource v

def Error.isEnd : Error → Bool
  | .exhausted => true
  | _ => false

def Error.isEndOfPositions : Error → Bool
  | .exhausted | .noIndex => true
  | _ => false

/-- Goes through elements that are there; a step says whether enough were seen. -/
def foldItems {σ : Type} (step : σ → Value → Action (σ × Bool)) (s : σ) : List Value → Action σ
  | [] => pure s
  | v :: rest => do
    let (s, isEnough) ← step s v
    if isEnough then pure s else foldItems step s rest

/-- Asks for elements until a failure says that nothing is left; a step says whether enough were
seen.
-/
def foldDrawn {σ : Type} (isEnd : Error → Bool) (next : Nat → Action Value)
    (step : σ → Value → Action (σ × Bool))
    : (fuel index : Nat) → σ → Action σ
  | 0, _, _ => throw .tooMuch
  | fuel + 1, index, s => do
    let found ← try some <$> next index
      catch e => if isEnd e then pure none else throw e
    match found with
    | some v =>
      let (s, isEnough) ← step s v
      if isEnough then pure s else foldDrawn isEnd next step fuel (index + 1) s
    | none => pure s

def drawLimit : Nat := 1000

/-- Goes through what a source gives; a step says whether enough was seen. -/
def ElementSource.fold {σ : Type} (source : ElementSource) (step : σ → Value → Action (σ × Bool))
    (s : σ)
    : Action σ :=
  match source with
  | .present items => foldItems step s items
  | .iterator v next => foldDrawn Error.isEnd (fun _ => callMember v next []) step drawLimit 0 s
  | .positions v getter =>
    let next (index : Nat) : Action Value := do callMember v getter [← createInt index]
    foldDrawn Error.isEndOfPositions next step drawLimit 0 s

def ElementSource.elements (source : ElementSource) : Action (List Value) := do
  match source with
  | .present items => pure items
  | _ => return (← source.fold (fun found v => pure (v :: found, false)) []).reverse

def elements (v : Value) : Action (List Value) := do (← sourceOf v).elements

def forElements (v : Value) (action : Value → Action Unit) : Action Unit := do
  (← sourceOf v).fold (fun _ item => do action item; return ((), false)) ()

/-- Whether a value is among the elements of another, which are gone through only up to it. -/
def standsInElements (item v : Value) : Action Bool := do
  let step (_ : Bool) (element : Value) : Action (Bool × Bool) := do
    let found ← matching element item
    return (found, found)
  (← sourceOf v).fold step false

/-- Asks a value of a class how many elements it expects to give. It may refuse to say. -/
def askSize (v : Value) : Action Unit := do
  let w ← get
  let said ← match w.override? v "__len__" with
    | some _ => try discard (sizeOf v); pure true
      catch e => if e.isOfType then pure false else throw e
    | none => pure (w.supports v "__len__")
  if !said then
    match w.override? v "__length_hint__" with
    | some member =>
      let answer ← try some <$> callMember v member []
        catch e => if e.isOfType then pure none else throw e
      match answer with
      | some .notImplemented | none => pure ()
      | some n => discard (declaredSize n)
    | none => pure ()

def World.isPlainSequence (w : World) (v : Value) : Bool :=
  let t := w.typeOf v
  t == .basic .list || t == .basic .tuple

def listElements (v : Value) : Action (List Value) := do
  if (← get).isPlainSequence v then elements v
  else
    let source ← sourceOf v
    askSize v
    source.elements

/-- The elements of a value that is read as a whole: those that its iterator gives for a new list. -/
def wholeElements (v : Value) : Action (List Value) := do
  if (← get).isPlainSequence v then elements v
  else match ← sourceOf v with
    | .iterator iterator _ => listElements iterator
    | source => source.elements

end Fxml.Live
