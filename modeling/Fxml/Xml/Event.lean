import Fxml.Diagnostic

/-! What an XML document consists of, in source order, and why a text is no document. -/

namespace Fxml.Xml

/-- An attribute of a start tag: its name, and its value after references are decoded. -/
structure Attribute where
  name : String
  value : String
deriving DecidableEq

inductive Event where
  | startTag (offset : Nat) (name : String) (attributes : List Attribute)
  /-- An end tag; that of an empty element stands right after it. -/
  | endTag (offset : Nat) (name : String)
  /-- Character data between two pieces of markup: as it stands in the source, and decoded. -/
  | text (offset : Nat) (raw value : String)
  /-- A section of literal text; its source form starts with the opening bracket. -/
  | cdata (offset : Nat) (raw value : String)
  | instruction (offset : Nat) (target data : String)
  | comment (offset : Nat)
deriving DecidableEq

inductive Cause where
  | invalidToken
  | unclosedToken
  | unclosedCdata
  | invalidCharReference
  /-- An entity without a declaration, with its text where it can be shown. -/
  | unknownEntity (reference : Option String)
  | duplicateAttribute (name : String)
  | mismatchedEndTag (found expected : String)
  | unterminatedElement (name : String)
  | noRoot
  | multipleRoots
  | textOutsideRoot
  | strayMarkup
  | misplacedDeclaration
  | malformedDeclaration
  | documentType
  | parameterReference
  | publicId
deriving DecidableEq

namespace Cause

def message : Cause → String
  | invalidToken => "not well-formed (invalid token)"
  | unclosedToken => "unclosed token"
  | unclosedCdata => "unclosed CDATA section"
  | invalidCharReference => "reference to invalid character number"
  | unknownEntity (some reference) => "unknown entity '" ++ reference ++ "'"
  | unknownEntity none => "unknown entity"
  | duplicateAttribute name => "duplicate attribute '" ++ name ++ "'"
  | mismatchedEndTag found expected =>
    "mismatched end tag </" ++ found ++ ">, expected </" ++ expected ++ ">"
  | unterminatedElement name => "unterminated element <" ++ name ++ ">"
  | noRoot => "document has no root element"
  | multipleRoots => "multiple root elements"
  | textOutsideRoot => "text outside the root element"
  | strayMarkup => "syntax error"
  | misplacedDeclaration => "XML declaration must come first"
  | malformedDeclaration => "XML declaration not well-formed"
  | documentType => "document type declarations are not supported"
  | parameterReference => "illegal parameter entity reference"
  | publicId => "illegal character(s) in public id"

end Cause

/-- A cause, and how many characters of the text are left from its place on. -/
structure Flaw where
  cause : Cause
  left : Nat
deriving DecidableEq

end Fxml.Xml
