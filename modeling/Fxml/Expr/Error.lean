import Fxml.Diagnostic
import Fxml.Halt

/-! Why a value does not follow the expression grammar. -/

namespace Fxml

inductive ExprCause where
  | unexpectedCharacter (c : Char)
  | unterminatedString
  | invalidUnicodeEscape
  | invalidEscape (c : Char)
  | invalidNumber (text : String)
  /-- A bracket with no partner before the end. -/
  | neverClosed (opener : String)
  | expectedCloser (closer found : String)
  | strayCloser (closer : String)
  | unexpectedToken (text : String)
  | unexpectedEnd
  | emptySegment
  | emptyIndex
  | tooManyArguments
  | missingColon
  | expectedElementId
  | emptyLocation
  | emptyResourceKey
  | bindingNotPermitted
  | unterminatedBinding
  | emptyBinding
  | emptyReference
  | unknownSigil (c : Char)
  | invalidMethod (raw : String)
  | scriptHandler
deriving DecidableEq

namespace ExprCause

def message : ExprCause → String
  | unexpectedCharacter c => "unexpected character '" ++ c.toString ++ "'"
  | unterminatedString => "unterminated string literal"
  | invalidUnicodeEscape => "invalid unicode escape"
  | invalidEscape c => "invalid escape: \\" ++ c.toString
  | invalidNumber text => "invalid number '" ++ text ++ "'"
  | neverClosed opener => "unbalanced bracket: '" ++ opener ++ "' is never closed"
  | expectedCloser closer found => "expected '" ++ closer ++ "', got '" ++ found ++ "'"
  | strayCloser closer => "unbalanced bracket: unexpected '" ++ closer ++ "'"
  | unexpectedToken text => "unexpected '" ++ text ++ "'"
  | unexpectedEnd => "unexpected end of expression"
  | emptySegment => "empty path segment"
  | emptyIndex => "empty index"
  | tooManyArguments => "method calls take at most one argument"
  | missingColon => "expected ':' in map literal"
  | expectedElementId => "expected an element id after '$'"
  | emptyLocation => "empty location"
  | emptyResourceKey => "empty resource key"
  | bindingNotPermitted => "binding expression is not permitted here"
  | unterminatedBinding => "unterminated binding expression"
  | emptyBinding => "empty binding expression"
  | emptyReference => "empty reference"
  | unknownSigil c => "unknown reference sigil '$" ++ c.toString ++ "'"
  | invalidMethod raw => "invalid method reference '" ++ raw ++ "'"
  | scriptHandler => "script event handlers are not supported"

end ExprCause

structure ExprError where
  cause : ExprCause
  pos : Position
deriving DecidableEq

def ExprError.toFault (e : ExprError) : Fault := ⟨.malformedExpression, e.cause.message, e.pos⟩

end Fxml
