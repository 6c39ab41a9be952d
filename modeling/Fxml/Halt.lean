import Fxml.Text.CharClass

/-! Failures that are no reports about a document. -/

namespace Fxml

/-- Why work stops without a report. -/
inductive Halt where
  /-- A whole number has more digits than are read. -/
  | unreadNumber (digits : Nat)
  /-- A whole number has more digits than are written. -/
  | unwrittenNumber
  /-- A reference stands for no character. -/
  | noCharacter
  /-- A token behind the last one is looked at. -/
  | pastEnd
  /-- A bracket is closed and none is open. -/
  | noBracket
  | noRoot
  | endless
deriving DecidableEq

def Halt.message : Halt → String
  | unreadNumber digits =>
    "ValueError: Exceeds the limit (4300 digits) for integer string conversion: value has "
      ++ toString digits ++ " digits; use sys.set_int_max_str_digits() to increase the limit"
  | unwrittenNumber =>
    "ValueError: Exceeds the limit (4300 digits) for integer string conversion; "
      ++ "use sys.set_int_max_str_digits() to increase the limit"
  | noCharacter => "ValueError: no character"
  | pastEnd | noBracket => "IndexError: list index out of range"
  | noRoot => "AssertionError: "
  | endless => "RuntimeError: endless"

/-- Why nothing is read: a fault that is reported, or a failure that is not. -/
inductive Refusal (ε : Type) where
  | fault (error : ε)
  | halt (reason : Halt)
deriving DecidableEq

end Fxml
