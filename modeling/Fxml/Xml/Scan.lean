import Fxml.Xml.Character
import Fxml.Xml.Event
import Fxml.Text.Blank

/-! Scanners for the tokens of XML documents. Each takes the text after the characters that tell the
token's kind and returns what is left of it.
-/

open List

namespace Fxml.Xml

/-- What is left of a text. -/
abbrev Rest (cs : List Char) : Type := { rest : List Char // rest <:+ cs }

namespace Rest

@[simp] def whole (cs : List Char) : Rest cs := ⟨cs, List.suffix_rfl⟩

@[simp] def after {c : Char} {cs : List Char} (rest : Rest cs) : Rest (c :: cs) :=
  ⟨rest.1, rest.2.trans (List.suffix_cons c cs)⟩

@[simp] def within {cs : List Char} (rest : Rest cs) (later : Rest rest.1) : Rest cs :=
  ⟨later.1, later.2.trans rest.2⟩

end Rest

@[grind →] theorem suffix_of_cons_suffix {c : Char} {rest cs : List Char} (h : c :: rest <:+ cs)
    : rest <:+ cs :=
  (suffix_cons c rest).trans h

/-- Why a scan stops: at a character that does not belong, or at the end of the text. -/
inductive Stop where
  | invalid (left : Nat)
  | unfinished
deriving DecidableEq

/-- The flaw of a token that starts `left` characters before the end. -/
def Stop.flaw (left : Nat) : Stop → Flaw
  | .invalid place => ⟨.invalidToken, place⟩
  | .unfinished => ⟨.unclosedToken, left⟩

abbrev Scan (α : Type) (cs : List Char) : Type := Except Stop (α × Rest cs)

/-- The scan stops at the first character of the given text, if it has one. -/
def stopAt (cs : List Char) : Stop := if cs.isEmpty then .unfinished else .invalid cs.length

def takeRun (p : Char → Bool) (cs : List Char) : List Char × Rest cs :=
  (cs.takeWhile p, ⟨cs.dropWhile p, dropWhile_suffix p⟩)

def skipSpace (cs : List Char) : Rest cs := (takeRun isSpace cs).2

def scanName (cs : List Char) : Scan String cs :=
  match cs with
  | [] => .error .unfinished
  | c :: more =>
    if isNameStart c then
      let (tail, ⟨rest, h⟩) := takeRun isNameChar more
      if rest.isEmpty then .error .unfinished
      else .ok (String.ofList (c :: tail), .after ⟨rest, h⟩)
    else .error (.invalid (c :: more).length)

/-- Scans the body of a reference after its ampersand, up to the semicolon. -/
def scanReference (cs : List Char) : Scan (List Char) cs :=
  match cs with
  | '#' :: 'x' :: more => digits Text.isAsciiHex ['#', 'x'] more (by grind)
  | '#' :: more => digits Text.isAsciiDigit ['#'] more (by simp)
  | cs => do
    let (name, ⟨rest, h⟩) ← scanName cs
    match rest, h with
    | ';' :: rest, h => return (name.toList, ⟨rest, by grind⟩)
    | rest, _ => .error (stopAt rest)
where
  digits (p : Char → Bool) (mark more : List Char) {cs : List Char}
      (hm : more <:+ cs)
      : Scan (List Char) cs :=
    let (run, ⟨rest, h⟩) := takeRun p more
    if run.isEmpty then .error (stopAt more)
    else
      match rest, h with
      | ';' :: rest, h =>
        .ok (mark ++ run, ⟨rest, by grind⟩)
      | rest, _ => .error (stopAt rest)

/-- The character that a reference stands for; `none` when an entity has no declaration. -/
def decodeReference (body : List Char) : Except Unit (Option Char) :=
  match body with
  | '#' :: 'x' :: digits => number (Text.hexNumber digits)
  | '#' :: digits => number (Text.digitsNumber digits)
  | name => .ok (predefined? (String.ofList name))
where
  number (n : Nat) : Except Unit (Option Char) :=
    if isCharNumber n then .ok (some (Char.ofNat n)) else .error ()

/-- Scans the rest of a comment after its opening dash: the second dash, and everything up to the
closing dashes and bracket.
-/
def scanComment (cs : List Char) : Scan Unit cs :=
  match cs with
  | '-' :: more => do
    let rest ← body more
    return ((), rest.after)
  | cs => .error (stopAt cs)
where
  body (cs : List Char) : Except Stop (Rest cs) :=
    match cs with
    | [] => .error .unfinished
    | '-' :: '-' :: '>' :: more => .ok ⟨more, by grind⟩
    | '-' :: '-' :: more => .error (stopAt more)
    | c :: more => do
      if isValid c then
        let rest ← body more
        return rest.after
      else .error (.invalid (c :: more).length)

def scanData (cs : List Char) : Scan (List Char) cs :=
  match cs with
  | [] => .error .unfinished
  | '?' :: '>' :: more => .ok ([], ⟨more, by grind⟩)
  | c :: more => do
    if isValid c then
      let (data, rest) ← scanData more
      return (c :: data, rest.after)
    else .error (.invalid (c :: more).length)

/-- An instruction, or the declaration that may open a document, as the text from its target to its
end.
-/
inductive Instruction where
  | plain (target : String) (data : String)
  | declaration (body : List Char)

/-- The name of the declaration in some other case is no target. -/
def isReservedTarget (target : String) : Bool :=
  target != "xml" && target.toList.map Char.toLower == ['x', 'm', 'l']

def scanInstruction (cs : List Char) : Scan Instruction cs := do
  let (target, ⟨rest, h⟩) ← scanName cs
  match rest, h with
  | '?' :: more, h => do
    if isReservedTarget target then .error (.invalid (more.length + 1))
    else
      match more, h with
      | '>' :: more, h =>
        return (if target = "xml" then .declaration [] else .plain target "", ⟨more, by grind⟩)
      | more, _ => .error (stopAt more)
  | c :: more, h => do
    if isSpace c && !isReservedTarget target then
      let (data, ⟨rest, h'⟩) ← scanData more
      let plain := Text.normalizeNewlines ((c :: data).dropWhile isSpace)
      return (if target = "xml" then .declaration (c :: data)
        else .plain target (Text.strip (String.ofList plain)),
        ⟨rest, by grind⟩)
    else .error (.invalid (more.length + 1))
  | [], _ => .error .unfinished

/-- An attribute as it stands in the tag: name, value between the quotes, and how many characters
are left from the name and from the value on.
-/
structure RawAttribute where
  name : String
  value : List Char
  nameLeft : Nat
  valueLeft : Nat

structure RawTag where
  name : String
  attributes : List RawAttribute
  empty : Bool

/-- Scans an attribute value up to its closing quote. References are checked but not decoded. -/
def scanAttributeValue (quote : Char) (cs : List Char) : Scan (List Char) cs :=
  match cs with
  | [] => .error .unfinished
  | c :: more => do
    if c == quote then return ([], ⟨more, by simp⟩)
    else if c == '&' then
      let (body, rest) ← scanReference more
      let (value, rest') ← scanAttributeValue quote rest.1
      return ('&' :: body ++ ';' :: value, .after (rest.within rest'))
    else if c == '<' || !isValid c then .error (.invalid (c :: more).length)
    else
      let (value, rest) ← scanAttributeValue quote more
      return (c :: value, rest.after)
termination_by cs.length
decreasing_by
  all_goals grind

/-- Scans one attribute: name, equals sign and quoted value, with blanks around the sign. -/
def scanAttribute (cs : List Char) : Scan RawAttribute cs := do
  let (name, ⟨rest, h⟩) ← scanName cs
  match skipSpace rest with
  | ⟨'=' :: more, h₁⟩ =>
    match skipSpace more with
    | ⟨q :: more', h₂⟩ => do
      if q == '"' || q == '\'' then
        let (value, ⟨rest', h₃⟩) ← scanAttributeValue q more'
        return (⟨name, value, cs.length, more'.length⟩, ⟨rest', by grind⟩)
      else .error (.invalid (more'.length + 1))
    | ⟨[], _⟩ => .error .unfinished
  | ⟨other, _⟩ => .error (stopAt other)

/-- Scans the end of a start tag, if it stands here: a bracket, or a slash and a bracket for a tag
that ends its own element.
-/
def scanTagEnd? (cs : List Char) : Option (Scan Bool cs) :=
  match cs with
  | '>' :: more => some (.ok (false, ⟨more, by simp⟩))
  | '/' :: more =>
    match more with
    | '>' :: more => some (.ok (true, ⟨more, by grind⟩))
    | more => some (.error (stopAt more))
  | _ => none

/-- Scans what follows the name of a start tag: attributes after blanks, then the end of the tag.
-/
def scanAttributes (cs : List Char) : Scan (List RawAttribute × Bool) cs :=
  match scanTagEnd? cs with
  | some ended => ended.map fun (empty, rest) => (([], empty), rest)
  | none =>
    match cs with
    | [] => .error .unfinished
    | c :: more =>
      if isSpace c then
        let ⟨start, h⟩ := skipSpace more
        match scanTagEnd? start with
        | some ended => do
          let (empty, ⟨rest, h₁⟩) ← ended
          return (([], empty), ⟨rest, by grind⟩)
        | none => do
          let (first, rest) ← scanAttribute start
          let ((attributes, empty), rest') ← scanAttributes rest.1
          return ((first :: attributes, empty), .after (.within ⟨start, h⟩ (rest.within rest')))
      else .error (.invalid (c :: more).length)
termination_by cs.length
decreasing_by
  grind

def scanStartTag (cs : List Char) : Scan RawTag cs := do
  let (name, rest) ← scanName cs
  let ((attributes, empty), rest') ← scanAttributes rest.1
  return (⟨name, attributes, empty⟩, rest.within rest')

def scanEndTag (cs : List Char) : Scan String cs := do
  let (name, ⟨rest, h⟩) ← scanName cs
  match skipSpace rest with
  | ⟨'>' :: more, h'⟩ => return (name, ⟨more, by grind⟩)
  | ⟨other, _⟩ => .error (stopAt other)

/-- Scans the keyword that opens a section of literal text, after the bracket. -/
def scanCdataOpen (cs : List Char) : Except Stop (Rest cs) :=
  let keyword := ['C', 'D', 'A', 'T', 'A', '[']
  if (cs.take 6).foldl (fun size c => size + c.utf8Size) 0 < 6 then .error .unfinished
  else
    let matched := ((cs.zip keyword).takeWhile fun (c, k) => c == k).length
    if matched = 6 then .ok ⟨cs.drop 6, drop_suffix 6 cs⟩
    else .error (.invalid (cs.length - matched))

/-- Takes literal text up to the end of its section, with line ends normalized. The flaw of an
unclosed section stands where its last piece starts.
-/
def scanCdata (cs : List Char) : Except Flaw (List Char × Rest cs) :=
  match cs with
  | [] => .error ⟨.unclosedCdata, 0⟩
  | ']' :: ']' :: '>' :: more => .ok ([], ⟨more, by grind⟩)
  | [']'] => .error ⟨.unclosedCdata, 1⟩
  | [']', ']'] => .error ⟨.unclosedCdata, 2⟩
  | ['\r'] => .error ⟨.unclosedCdata, 1⟩
  | '\r' :: '\n' :: more => do
    let (text, rest) ← scanCdata more
    return ('\n' :: text, rest.after.after)
  | c :: more => do
    if isValid c then
      let (text, rest) ← scanCdata more
      return ((if c = '\r' then '\n' else c) :: text, rest.after)
    else .error ⟨.invalidToken, (c :: more).length⟩

/-- Takes the next character of character data, which starts with `c`: a reference is decoded, and a
line end is a line feed. The bracket that closes a literal section is not allowed.
-/
def scanPiece (c : Char) (more : List Char) : Except Flaw (Char × Rest more) :=
  let left := more.length + 1
  if c == '&' then
    match scanReference more with
    | .error stop => .error (stop.flaw left)
    | .ok (body, rest) =>
      match decodeReference body with
      | .error _ => .error ⟨.invalidCharReference, left⟩
      | .ok none => .error ⟨.unknownEntity (some (String.ofList ('&' :: body ++ [';']))), left⟩
      | .ok (some d) => .ok (d, rest)
  else if c == '\r' then
    match more with
    | '\n' :: rest => .ok ('\n', ⟨rest, by simp⟩)
    | more => .ok ('\n', ⟨more, suffix_rfl⟩)
  else if c == ']' && [']', '>'].isPrefixOf more then .error ⟨.invalidToken, left - 2⟩
  else if isValid c then .ok (c, ⟨more, suffix_rfl⟩)
  else .error ⟨.invalidToken, left⟩

def scanText (cs : List Char) : Except Flaw (List Char × Rest cs) :=
  match cs with
  | [] => .ok ([], ⟨[], suffix_rfl⟩)
  | c :: more => do
    if c == '<' then return ([], ⟨c :: more, suffix_rfl⟩)
    else
      let (d, rest) ← scanPiece c more
      let (text, rest') ← scanText rest.1
      return (d :: text, .after (rest.within rest'))
termination_by cs.length
decreasing_by
  grind

end Fxml.Xml
