import Fxml.Table
import Fxml.Text.Blank

/-! Resource bundles: texts by key. -/

namespace Fxml.Resource

/-- An entry from a line that is neither blank nor a comment: the first equals sign or colon ends
the key.
-/
def entry (line : String) : String × String :=
  let isSeparator (c : Char) : Bool := c == '=' || c == ':'
  let key := line.toList.takeWhile (!isSeparator ·)
  let value := line.toList.drop (key.length + 1)
  (Text.strip (String.ofList key), Text.strip (String.ofList value))

def isEntry (line : String) : Bool :=
  match line.toList with
  | [] => false
  | c :: _ => c != '#' && c != '!'

/-- Reads lines of keys and values. A later entry replaces an earlier one of the same key. -/
def read (text : String) : Table String :=
  Table.ofList ((((Text.lines text).map Text.strip).filter isEntry).map entry)

inductive Error where
  | noBundle (key : String)
  | missing (key : String)
deriving DecidableEq

def Error.message : Error → String
  | noBundle key => "no resources supplied for %" ++ key
  | missing key => key

def text (resources : Option (Table String)) (key : String) : Except Error String :=
  match resources with
  | none => .error (.noBundle key)
  | some bundle =>
    match bundle.get? key with
    | some found => .ok found
    | none => .error (.missing key)

end Fxml.Resource
