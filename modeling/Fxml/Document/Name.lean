import Fxml.Text.Word

/-! The names of markup: ids, properties, static properties and qualified type names. One line feed
at the end of a name is let pass.
-/

namespace Fxml.Name

def withoutLineFeed (cs : List Char) : List Char :=
  if cs.getLast? = some '\n' then cs.dropLast else cs

def segments (cs : List Char) : List (List Char) := cs.splitOn '.'

def isWordOf (first : Char → Bool) : List Char → Bool
  | [] => false
  | c :: rest => first c && rest.all Text.isWord

def isNameStart (c : Char) : Bool := Text.isAsciiAlpha c

def isPropertyStart (c : Char) : Bool := Text.isAsciiLower c || c == '_'

def isId (s : String) : Bool := isWordOf isNameStart (withoutLineFeed s.toList)

/-- A property name: it starts with a lowercase letter or an underscore. -/
def isProperty (s : String) : Bool := isWordOf isPropertyStart (withoutLineFeed s.toList)

def isQualified (s : String) : Bool :=
  (segments (withoutLineFeed s.toList)).all (isWordOf isNameStart)

/-- A static property: a type name that ends in a capitalised name, a dot and a property name. -/
def isStaticProperty (s : String) : Bool :=
  match (segments (withoutLineFeed s.toList)).reverse with
  | property :: owner :: package =>
    isWordOf isPropertyStart property && isWordOf Text.isAsciiUpper owner
      && package.all (isWordOf Text.isWord)
  | _ => false

def splitLast (s : String) : String × String :=
  match (segments s.toList).reverse with
  | last :: before => (String.ofList ([('.')].intercalate before.reverse), String.ofList last)
  | [] => ("", s)

/-- The part of a name before its first colon, if it has one, and the rest. -/
def splitPrefix (s : String) : Option String × String :=
  let cs := s.toList
  let head := cs.takeWhile (· != ':')
  match cs.dropWhile (· != ':') with
  | _ :: tail => (some (String.ofList head), String.ofList tail)
  | [] => (none, s)

end Fxml.Name
