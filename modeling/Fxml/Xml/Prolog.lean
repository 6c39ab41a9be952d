import Fxml.Xml.Scan

/-! The declaration that may open an XML document: a version, then an encoding and a statement on
standing alone, each optional. -/

namespace Fxml.Xml

/-- A name and a quoted value inside the declaration, each with the text from it on. -/
structure PseudoAttribute where
  name : List Char
  nameOn : List Char
  value : List Char
  valueOn : List Char
  rest : List Char

def isDeclarationChar (c : Char) : Bool :=
  Text.isAsciiLower c || Text.isAsciiUpper c || Text.isAsciiDigit c || c == '.' || c == '-'
    || c == '_'

/-- Reads the next pseudo-attribute after blanks, or finds that only blanks are left. An error is
the text from the offending character on.
-/
def pseudoAttribute (cs : List Char) : Except (List Char) (Option PseudoAttribute) :=
  if cs.isEmpty then .ok none
  else if !cs.head?.any isSpace then .error cs
  else
    let nameOn := cs.dropWhile isSpace
    if nameOn.isEmpty then .ok none
    else
      let isNamePart (c : Char) : Bool := c.toNat < 128 && c != '=' && !isSpace c
      let name := nameOn.takeWhile isNamePart
      let sign := (nameOn.dropWhile isNamePart).dropWhile isSpace
      match sign with
      | '=' :: afterSign =>
        if name.isEmpty then .error sign
        else
          match afterSign.dropWhile isSpace with
          | quote :: valueOn =>
            if quote == '"' || quote == '\'' then
              let value := valueOn.takeWhile isDeclarationChar
              match valueOn.dropWhile isDeclarationChar with
              | c :: rest => if c == quote then .ok (some ⟨name, nameOn, value, valueOn, rest⟩)
                else .error (c :: rest)
              | [] => .error []
            else .error (quote :: valueOn)
          | [] => .error []
      | other => .error other

/-- Checks a statement on standing alone, and that only blanks follow it. -/
def checkStandalone (p : PseudoAttribute) : Except (List Char) Unit :=
  if p.name ≠ "standalone".toList then .error p.nameOn
  else if p.value ≠ "yes".toList && p.value ≠ "no".toList then .error p.valueOn
  else
    let rest := p.rest.dropWhile isSpace
    if rest.isEmpty then .ok () else .error rest

/-- Checks an encoding and what follows it. The encoding itself has no effect. -/
def checkEncoding (p : PseudoAttribute) : Except (List Char) Unit := do
  if p.name ≠ "encoding".toList then checkStandalone p
  else if !p.value.head?.any (fun c => Text.isAsciiLower c || Text.isAsciiUpper c) then
    .error p.valueOn
  else
    match ← pseudoAttribute p.rest with
    | some next => checkStandalone next
    | none => .ok ()

def checkDeclaration (cs : List Char) : Except (List Char) Unit := do
  match ← pseudoAttribute cs with
  | none => .error cs
  | some version =>
    if version.name ≠ "version".toList then .error version.nameOn
    else
      match ← pseudoAttribute version.rest with
      | some next => checkEncoding next
      | none => .ok ()

/-! What may stand before and after the root element: blanks, comments and instructions. A document
type declaration is recognised only to be refused.
-/

inductive PrologToken where
  | space
  | declaration (body : List Char)
  | instruction (target data : String)
  | comment
  | element
  | keyword (name : String)
  | openBracket
  | closeAngle
  | name (text : String)
  | literal (body : List Char)
  | parameterReference
  | punctuation

/-- Takes a quoted literal after its quote; something that divides must follow it. -/
def scanLiteral (quote : Char) (cs : List Char) : Scan (List Char) cs :=
  match cs with
  | [] => .error .unfinished
  | c :: more => do
    if c == quote then
      if more.isEmpty || more.head?.any (fun d => isSpace d || d == '>' || d == '%' || d == '[')
      then return ([], ⟨more, by simp⟩)
      else .error (.invalid more.length)
    else if isValid c then
      let (body, rest) ← scanLiteral quote more
      return (c :: body, rest.after)
    else .error (.invalid (c :: more).length)

/-- Scans what follows an exclamation mark: a comment, a section bracket or a keyword. -/
def scanKeyword (cs : List Char) : Scan PrologToken cs :=
  match cs with
  | [] => .error .unfinished
  | '-' :: more => do
    let (_, rest) ← scanComment more
    return (.comment, rest.after)
  | '[' :: more => .ok (.punctuation, .after (.whole more))
  | c :: more =>
    let isLetter (c : Char) : Bool := Text.isAsciiAlpha c || c == ':'
    if isLetter c then
      let (tail, ⟨rest, h⟩) := takeRun isLetter more
      match rest, h with
      | [], _ => .error .unfinished
      | ['%'], _ => .error .unfinished
      | '%' :: d :: rest, h =>
        if isSpace d || d == '%' then .error (.invalid (rest.length + 2))
        else .ok (.keyword (String.ofList (c :: tail)), .after ⟨'%' :: d :: rest, h⟩)
      | d :: rest, h =>
        if isSpace d then
          .ok (.keyword (String.ofList (c :: tail)), .after ⟨d :: rest, h⟩)
        else .error (.invalid (rest.length + 1))
    else .error (.invalid (c :: more).length)

def scanPercent (cs : List Char) : Scan PrologToken cs :=
  match cs with
  | [] => .error .unfinished
  | c :: more =>
    if isSpace c || c == '%' then .ok (.punctuation, .whole _)
    else do
      let (_, ⟨rest, h⟩) ← scanName (c :: more)
      match rest, h with
      | ';' :: rest, h =>
        return (.parameterReference, ⟨rest, by grind⟩)
      | rest, _ => .error (stopAt rest)

/-- Scans what follows a number sign: a name and something that divides. -/
def scanPoundName (cs : List Char) : Scan PrologToken cs :=
  match cs with
  | [] => .error .unfinished
  | c :: more =>
    if isNameStart c then
      let (_, ⟨rest, h⟩) := takeRun isNameChar more
      if rest.isEmpty || rest.head?.any (fun d => isSpace d || ")>%|".toList.contains d) then
        .ok (.punctuation, .after ⟨rest, h⟩)
      else .error (.invalid rest.length)
    else .error (.invalid (c :: more).length)

/-- Scans a name or a name token, which must be followed by something that divides. -/
def scanWord (c : Char) (more : List Char) : Scan PrologToken more :=
  let (tail, ⟨rest, h⟩) := takeRun isNameChar more
  let token : PrologToken :=
    if isNameStart c then .name (String.ofList (c :: tail)) else .punctuation
  match rest, h with
  | [], h => .ok (token, ⟨[], h⟩)
  | d :: rest, h =>
    if isSpace d || ">),|[%".toList.contains d then .ok (token, ⟨d :: rest, h⟩)
    else if isNameStart c && "+*?".toList.contains d then .ok (.punctuation, ⟨d :: rest, h⟩)
    else .error (.invalid (rest.length + 1))

def scanCloseParen (cs : List Char) : Scan PrologToken cs :=
  if cs.isEmpty || cs.head?.any (fun d => isSpace d || "*?+>,|)".toList.contains d) then
    .ok (.punctuation, ⟨cs, List.suffix_rfl⟩)
  else .error (.invalid cs.length)

def scanPrologToken (c : Char) (more : List Char) : Scan PrologToken more :=
  if isSpace c then .ok (.space, skipSpace more)
  else if c == '"' || c == '\'' then do
    let (body, rest) ← scanLiteral c more
    return (.literal body, rest)
  else if c == '<' then markup more
  else if c == '%' then scanPercent more
  else if c == '[' then .ok (.openBracket, ⟨more, List.suffix_rfl⟩)
  else if c == ']' then
    if more = [']'] then .error .unfinished else .ok (.punctuation, ⟨more, List.suffix_rfl⟩)
  else if c == ')' then scanCloseParen more
  else if c == '>' then .ok (.closeAngle, ⟨more, List.suffix_rfl⟩)
  else if c == '#' then scanPoundName more
  else if c == ',' || c == '(' || c == '|' then .ok (.punctuation, ⟨more, List.suffix_rfl⟩)
  else if isNameChar c then scanWord c more
  else .error (.invalid (more.length + 1))
where
  markup (more : List Char) : Scan PrologToken more :=
    match more with
    | [] => .error .unfinished
    | '!' :: rest => do
      let (token, rest) ← scanKeyword rest
      return (token, rest.after)
    | '?' :: rest => do
      let (found, rest) ← scanInstruction rest
      return (match found with
        | .plain target data => .instruction target data
        | .declaration body => .declaration body,
        rest.after)
    | d :: rest =>
      if Text.isAsciiAlpha d || d == ':' || 128 ≤ d.toNat then
        .ok (.element, .whole _)
      else .error (.invalid (rest.length + 1))

inductive DoctypeStage where
  | keyword | name | publicId | systemId | ids

def isPublicIdChar (c : Char) : Bool :=
  Text.isAsciiAlnum c || " \r\n-'()+,./=?;!*%#$@:".toList.contains c

/-- The text from the last place on where a document type declaration starts, among those no later
than the given number of characters before the end.
-/
def lastDoctype (left : Nat) : List Char → Option Nat
  | [] => none
  | c :: rest =>
    match lastDoctype left rest with
    | some found => some found
    | none =>
      if left ≤ rest.length + 1 && "<!DOCTYPE".toList.isPrefixOf (c :: rest) then
        some (rest.length + 1)
      else none

/-- The flaw of a document type declaration: the declaration itself where it is complete as far as
its internal part or its end, and before that whatever is wrong with it. `opening` is the text
from the declaration on.
-/
def doctypeFlaw (opening : List Char) (stage : DoctypeStage) (cs : List Char) : Flaw :=
  match cs with
  | [] => ⟨.noRoot, 0⟩
  | c :: more =>
    match scanPrologToken c more with
    | .error stop => stop.flaw (c :: more).length
    | .ok (token, ⟨rest, _⟩) =>
      let here := (c :: more).length
      let refused : Flaw := ⟨.documentType, (lastDoctype here opening).getD opening.length⟩
      let next := fun stage => doctypeFlaw opening stage rest
      match token, stage with
      | .space, stage => next stage
      | .name _, .keyword => next .name
      | .name "SYSTEM", .name => next .systemId
      | .name "PUBLIC", .name => next .publicId
      | .openBracket, .name | .closeAngle, .name => refused
      | .openBracket, .ids | .closeAngle, .ids => refused
      | .literal body, .publicId =>
        let bad := body.dropWhile isPublicIdChar
        if bad.isEmpty then next .systemId
        else ⟨.publicId, bad.length + 1 + rest.length⟩
      | .literal _, .systemId => next .ids
      | .parameterReference, _ => ⟨.parameterReference, here⟩
      | .declaration _, _ => ⟨.misplacedDeclaration, here⟩
      | _, _ => if c == '<' then ⟨.strayMarkup, here⟩ else ⟨.textOutsideRoot, here⟩
termination_by cs.length
decreasing_by
  grind

end Fxml.Xml
