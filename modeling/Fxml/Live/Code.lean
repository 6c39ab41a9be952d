import Fxml.Live.Member

/-! How large a value is, which whole number it stands for, and whether it counts as true. -/

namespace Fxml.Live

def fitsWord (n : Int) : Bool := -(1 <<< 63) ≤ n && n < 1 <<< 63

def indexOf (v : Value) : Action Int := do
  match (← get).whole? v with
  | some n => pure n
  | none =>
    match ← callOverride? v "__index__" [] with
    | some result => match (← get).whole? result with
      | some n => pure n
      | none => throw .wrongType
    | none => throw .wrongType

def wordIndexOf (v : Value) : Action Int := do
  let n ← indexOf v
  if fitsWord n then pure n else throw (.arithmetic .tooLarge)

def shortIndexOf (v : Value) : Action Int := do
  let n ← indexOf v
  if -(1 <<< 31) ≤ n && n < 1 <<< 31 then pure n else throw (.arithmetic .tooLarge)

def sizeLimit : Nat := 1 <<< 28

def requireRoom (size : Nat) : Action Unit := if sizeLimit < size then throw .tooMuch else pure ()

namespace World

def size? (w : World) (v : Value) : Option Nat :=
  match w.text? v with
  | some s => some s.length
  | none => match w.body? v with
    | some (.list items) | some (.tuple items) => some items.length
    | some (.dict entries) => some entries.length
    | some (.bytes data) => some data.length
    | some (.view _ dict) => (w.entries? (.object dict)).map List.length
    | _ => (w.enumMembers? v).map List.length

/-- Whether a scalar counts as true: zero, nothing and the empty text do not. -/
def scalarTruth : Scalar → Bool
  | .null => false
  | .bool b => b
  | .int n => n ≠ 0
  | .float x => x != 0.0
  | .text s => s ≠ ""

/-- Whether a value of a basic kind counts as true: what is empty does not. -/
def basicTruth (w : World) (v : Value) : Bool :=
  match v, w.scalar? v with
  | .type _, _ => true
  | _, some s => scalarTruth s
  | _, none => match w.size? v with
    | some n => n ≠ 0
    | none => true

end World

def declaredSize (result : Value) : Action Nat := do
  let n ← wordIndexOf result
  if n < 0 then throw .wrongValue else pure n.toNat

def sizeOf (v : Value) : Action Nat := do
  match ← callOverride? v "__len__" [] with
  | some result => declaredSize result
  | none => match (← get).size? v with
    | some n => pure n
    | none => throw .wrongType

/-- Whether an object of a class counts as true: it may say so itself, or have a size. -/
def objectTruth (v : Value) : Action Bool := do
  let w ← get
  match w.declaration? (w.typeOf v) "__bool__" with
  | some (.made _, member) => match ← callMember v member [] with
    | .scalar (.bool b) _ => pure b
    | _ => throw .wrongType
  | some _ => pure (w.basicTruth v)
  | none => match ← callOverride? v "__len__" [] with
    | some result => return (← declaredSize result) ≠ 0
    | none => pure (w.basicTruth v)

def truth (v : Value) : Action Bool := do
  match v, (← get).typeOf v with
  | .object _, .made _ => objectTruth v
  | _, _ => return (← get).basicTruth v

/-! Codes of values as keys. Numbers of every kind that are equal have one code. -/

namespace Code

def modulus : Nat := 1 <<< 61 - 1

/-- The code that a machine word is; minus one is none. -/
def ofWord (n : Int) : Code := .number (if n = -1 then -2 else n)

def ofWhole (n : Int) : Code :=
  let rest : Int := (n.natAbs % modulus : Nat)
  ofWord (if n < 0 then -rest else rest)

/-- The code of a floating-point number; `n` tells apart the numbers that equal none. -/
def ofReal (x : Float) (n : Code) : Code :=
  if x.isNaN then n
  else if x.isInf then .number (if x < 0.0 then -314159 else 314159)
  else
    let (num, den) := Number.ratio x
    let halves := Nat.log2 den % 61
    let rest : Int := ((num.natAbs % modulus) <<< ((61 - halves) % 61) % modulus : Nat)
    ofWord (if num < 0 then -rest else rest)

def ofScalar (s : Scalar) (n : Code) : Code :=
  match s with
  | .null => .null
  | .bool b => .number (if b then 1 else 0)
  | .int k => ofWhole k
  | .float x => ofReal x n
  | .text t => .text t

def ofIdentity : Value → Code
  | .scalar s n => ofScalar s (.occurrence n)
  | .notImplemented => .several []
  | .type t => .type t
  | .builtin b => .builtin b
  | .method self function _ => .several [ofIdentity self, ofIdentity function]
  | .object id => .object id

end Code

/-- The code that a function of a class gives for one of its values. -/
def declaredCode (result : Value) : Action Code := do
  match (← get).whole? result with
  | some n => return if fitsWord n then Code.ofWord n else Code.ofWhole n
  | none => throw .wrongType

/-- The code of a value, with a bound on how deeply tuples are nested. -/
def codeWithin : Nat → Value → Action Code
  | 0, _ => throw .tooDeep
  | depth + 1, v => do
    let w ← get
    match v with
    | .object id =>
      match w.declaration? (w.typeOf v) "__hash__" with
      | some (.made _, member) =>
        if member.isNull then throw .wrongType else declaredCode (← callMember v member [])
      | some (.basic _, .scalar _ _) => throw .wrongType
      | some (.basic .enumeration, _) => return match w.own? v "_name_" with
        | some (.scalar s n) => Code.ofScalar s (.occurrence n)
        | _ => .object id
      | _ => match w.body? v with
        | some (.scalar s) => return Code.ofScalar s (.object id)
        | some (.tuple items) => return .several (← items.mapM (codeWithin depth))
        | some (.bytes data) => return .several (data.map fun b => .number b.toNat)
        | some (.parameterized t args) =>
          return .several (.type t :: (← args.mapM (codeWithin depth)))
        | _ => return .object id
    | _ => return Code.ofIdentity v

def nestingLimit : Nat := 1000

/-- The code of a value as a key; a value that can change has none. -/
def codeOf (v : Value) : Action Code := codeWithin nestingLimit v

end Fxml.Live
