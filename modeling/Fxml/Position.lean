/-! Places in a source text. -/

namespace Fxml

/-- A place in a source text; lines and columns count from one, columns in characters. -/
structure Position where
  line : Nat
  col : Nat
deriving DecidableEq

namespace Position

def start : Position := ⟨1, 1⟩

def right (p : Position) (n : Nat) : Position := ⟨p.line, p.col + n⟩

def text (p : Position) : String := toString p.line ++ ":" ++ toString p.col

end Position

end Fxml
