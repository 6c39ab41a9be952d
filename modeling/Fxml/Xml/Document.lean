import Fxml.Xml.Prolog

/-! Reading a whole XML document into its events. -/

namespace Fxml.Xml

/-- Decodes the references of an attribute value; line ends and tabs become spaces. `body` is the
reference under way, reversed, and `left` counts the characters of the document from here on. An
entity without a declaration is reported at the tag.
-/
def decodeValue (tagLeft : Nat) (body : Option (List Char)) (left : Nat)
    : List Char → Except Flaw (List Char)
  | [] => .ok []
  | '\r' :: '\n' :: rest => (decodeValue tagLeft body (left - 2) rest).map (' ' :: ·)
  | c :: rest =>
    match body with
    | none =>
      if c == '&' then decodeValue tagLeft (some []) (left - 1) rest
      else
        let shown := if isSpace c then ' ' else c
        (decodeValue tagLeft none (left - 1) rest).map (shown :: ·)
    | some body =>
      if c == ';' then
        match decodeReference body.reverse with
        | .error _ => .error ⟨.invalidCharReference, left + body.length + 1⟩
        | .ok none => .error ⟨.unknownEntity none, tagLeft⟩
        | .ok (some d) => (decodeValue tagLeft none (left - 1) rest).map (d :: ·)
      else decodeValue tagLeft (some (c :: body)) (left - 1) rest

/-- Decodes the attributes of a tag from the left; a name may stand only once. -/
def decodeAttributes (tagLeft : Nat) (seen : List String)
    : List RawAttribute → Except Flaw (List Attribute)
  | [] => .ok []
  | raw :: rest => do
    if seen.contains raw.name then .error ⟨.duplicateAttribute raw.name, raw.nameLeft⟩
    else
      let value ← decodeValue tagLeft none raw.valueLeft raw.value
      let attributes ← decodeAttributes tagLeft (raw.name :: seen) rest
      return ⟨raw.name, String.ofList value⟩ :: attributes

inductive Markup where
  | start (tag : RawTag)
  | stop (name : String)
  | instruction (target data : String)
  | comment
  | cdata (value : List Char)

def scanMarkup (cs : List Char) : Except Flaw (Markup × Rest cs) :=
  let left := cs.length + 1
  match cs with
  | [] => .error ⟨.unclosedToken, left⟩
  | '/' :: more =>
    match scanEndTag more with
    | .error stop => .error (stop.flaw left)
    | .ok (name, rest) => .ok (.stop name, rest.after)
  | '?' :: more =>
    match scanInstruction more with
    | .error stop => .error (stop.flaw left)
    | .ok (.declaration _, _) => .error ⟨.misplacedDeclaration, left⟩
    | .ok (.plain target data, rest) => .ok (.instruction target data, rest.after)
  | '!' :: '-' :: more =>
    match scanComment more with
    | .error stop => .error (stop.flaw left)
    | .ok (_, rest) => .ok (.comment, rest.after.after)
  | '!' :: '[' :: more =>
    match scanCdataOpen more with
    | .error stop => .error (stop.flaw left)
    | .ok inner => do
      let (value, rest) ← scanCdata inner.1
      return (.cdata value, (inner.within rest).after.after)
  | '!' :: more => .error ((stopAt more).flaw left)
  | cs =>
    match scanStartTag cs with
    | .error stop => .error (stop.flaw left)
    | .ok (tag, rest) => .ok (.start tag, rest)

/-- Reads content up to the end of the element opened first. `opened` holds the names of the open
elements and the places of their tags, the innermost first.
-/
def readContent (total : Nat) (opened : List (String × Nat)) (cs : List Char)
    : Except Flaw (List Event × Rest cs) :=
  match cs with
  | [] =>
    match opened with
    | (name, left) :: _ => .error ⟨.unterminatedElement name, left⟩
    | [] => .error ⟨.noRoot, 0⟩
  | c :: more =>
    let left := more.length + 1
    let offset := total - left
    if c == '<' then do
      let (markup, rest) ← scanMarkup more
      let width := left - rest.1.length
      match markup with
      | .start tag =>
        let attributes ← decodeAttributes left [] tag.attributes
        let start := .startTag offset tag.name attributes
        if tag.empty then
          let stop := .endTag (total - rest.1.length) tag.name
          if opened.isEmpty then
            return ([start, stop], rest.after)
          else
            let (events, rest') ← readContent total opened rest.1
            return (start :: stop :: events, .after (rest.within rest'))
        else
          let (events, rest') ← readContent total ((tag.name, left) :: opened) rest.1
          return (start :: events, .after (rest.within rest'))
      | .stop name =>
        match opened with
        | [] => .error ⟨.noRoot, 0⟩
        | (expected, _) :: outer =>
          if name ≠ expected then .error ⟨.mismatchedEndTag name expected, left⟩
          else if outer.isEmpty then
            return ([.endTag offset name], rest.after)
          else
            let (events, rest') ← readContent total outer rest.1
            return (.endTag offset name :: events, .after (rest.within rest'))
      | .instruction target data =>
        let (events, rest') ← readContent total opened rest.1
        return (.instruction offset target data :: events, .after (rest.within rest'))
      | .comment =>
        let (events, rest') ← readContent total opened rest.1
        return (.comment offset :: events, .after (rest.within rest'))
      | .cdata value =>
        let raw := String.ofList ((c :: more).take (width - 3))
        let (events, rest') ← readContent total opened rest.1
        return (.cdata offset raw (String.ofList value) :: events, .after (rest.within rest'))
    else do
      let (d, rest) ← scanPiece c more
      let (text, rest') ← scanText rest.1
      let raw := String.ofList ((c :: more).take (left - rest'.1.length))
      let (events, rest'') ← readContent total opened rest'.1
      return (.text offset raw (String.ofList (d :: text)) :: events,
        .after ((rest.within rest').within rest''))
termination_by cs.length
decreasing_by
  all_goals grind

def readEpilog (total : Nat) (cs : List Char) : Except Flaw (List Event) :=
  match cs with
  | [] => .ok []
  | c :: more =>
    let left := more.length + 1
    match scanPrologToken c more with
    | .error stop => .error (stop.flaw left)
    | .ok (token, ⟨rest, _⟩) =>
      match token with
      | .space => readEpilog total rest
      | .comment => (readEpilog total rest).map (.comment (total - left) :: ·)
      | .instruction target data =>
        (readEpilog total rest).map (.instruction (total - left) target data :: ·)
      | _ => .error ⟨if c == '<' then .multipleRoots else .textOutsideRoot, left⟩
termination_by cs.length
decreasing_by
  all_goals grind

/-- Reads a document from its start. A declaration may stand only where nothing was read before it.
-/
def readProlog (total : Nat) (first : Bool) (cs : List Char) : Except Flaw (List Event) :=
  match cs with
  | [] => .error ⟨.noRoot, 0⟩
  | c :: more =>
    let left := more.length + 1
    match scanPrologToken c more with
    | .error stop => .error (stop.flaw left)
    | .ok (token, ⟨rest, _⟩) =>
      match token with
      | .space => readProlog total false rest
      | .comment => (readProlog total false rest).map (.comment (total - left) :: ·)
      | .instruction target data =>
        (readProlog total false rest).map (.instruction (total - left) target data :: ·)
      | .declaration body =>
        if first then
          match checkDeclaration body with
          | .error bad => .error ⟨.malformedDeclaration, bad.length + 2 + rest.length⟩
          | .ok _ => readProlog total false rest
        else .error ⟨.misplacedDeclaration, left⟩
      | .keyword "DOCTYPE" => .error (doctypeFlaw cs .keyword rest)
      | .element => do
        let (events, ⟨rest', _⟩) ← readContent total [] (c :: more)
        let after ← readEpilog total rest'
        return events ++ after
      | .parameterReference => .error ⟨.parameterReference, left⟩
      | _ => .error ⟨if c == '<' then .strayMarkup else .textOutsideRoot, left⟩
termination_by cs.length
decreasing_by
  all_goals grind

def byteOrderMark : Char := Char.ofNat 0xFEFF

def read (cs : List Char) : Except Flaw (List Event) :=
  readProlog cs.length true (if cs.head? = some byteOrderMark then cs.drop 1 else cs)

end Fxml.Xml
