import Fxml.Text.Case

/-! Letter case beyond ASCII where the form at the start of a word, or the form that ignores case,
differs from the usual one. A progression `(first, last, step, distance)` stands for every
`step`-th code point from `first` to `last` and the one at that distance. -/

namespace Fxml.Text

/-- Characters that start a word as another single character than their uppercase form. -/
def titleProgressions : List (Nat × Nat × Nat × Int) :=
  [(0x1C4, 0x1C4, 1, 1), (0x1C5, 0x1C5, 1, 0), (0x1C6, 0x1C6, 1, -1), (0x1C7, 0x1C7, 1, 1),
   (0x1C8, 0x1C8, 1, 0), (0x1C9, 0x1C9, 1, -1), (0x1CA, 0x1CA, 1, 1), (0x1CB, 0x1CB, 1, 0),
   (0x1CC, 0x1CC, 1, -1), (0x1F1, 0x1F1, 1, 1), (0x1F2, 0x1F2, 1, 0), (0x1F3, 0x1F3, 1, -1),
   (0x10D0, 0x10FA, 1, 0), (0x10FD, 0x10FF, 1, 0), (0x1F80, 0x1F87, 1, 8),
   (0x1F88, 0x1F8F, 1, 0), (0x1F90, 0x1F97, 1, 8), (0x1F98, 0x1F9F, 1, 0),
   (0x1FA0, 0x1FA7, 1, 8), (0x1FA8, 0x1FAF, 1, 0), (0x1FB3, 0x1FB3, 1, 9),
   (0x1FBC, 0x1FBC, 1, 0), (0x1FC3, 0x1FC3, 1, 9), (0x1FCC, 0x1FCC, 1, 0),
   (0x1FF3, 0x1FF3, 1, 9), (0x1FFC, 0x1FFC, 1, 0)]

def titleExpansions : List (Nat × List Nat) :=
  [(0xDF, [0x53, 0x73]), (0x587, [0x535, 0x582]), (0x1FB2, [0x1FBA, 0x345]),
   (0x1FB4, [0x386, 0x345]), (0x1FB7, [0x391, 0x342, 0x345]), (0x1FC2, [0x1FCA, 0x345]),
   (0x1FC4, [0x389, 0x345]), (0x1FC7, [0x397, 0x342, 0x345]), (0x1FF2, [0x1FFA, 0x345]),
   (0x1FF4, [0x38F, 0x345]), (0x1FF7, [0x3A9, 0x342, 0x345]), (0xFB00, [0x46, 0x66]),
   (0xFB01, [0x46, 0x69]), (0xFB02, [0x46, 0x6C]), (0xFB03, [0x46, 0x66, 0x69]),
   (0xFB04, [0x46, 0x66, 0x6C]), (0xFB05, [0x53, 0x74]), (0xFB06, [0x53, 0x74]),
   (0xFB13, [0x544, 0x576]), (0xFB14, [0x544, 0x565]), (0xFB15, [0x544, 0x56B]),
   (0xFB16, [0x54E, 0x576]), (0xFB17, [0x544, 0x56D])]

/-- Characters whose form that ignores case is another single character than their lowercase
form. -/
def foldProgressions : List (Nat × Nat × Nat × Int) :=
  [(0xB5, 0xB5, 1, 775), (0x17F, 0x17F, 1, -268), (0x345, 0x345, 1, 116), (0x3C2, 0x3C2, 1, 1),
   (0x3D0, 0x3D0, 1, -30), (0x3D1, 0x3D1, 1, -25), (0x3D5, 0x3D5, 1, -15),
   (0x3D6, 0x3D6, 1, -22), (0x3F0, 0x3F0, 1, -54), (0x3F1, 0x3F1, 1, -48),
   (0x3F5, 0x3F5, 1, -64), (0x13A0, 0x13F5, 1, 0), (0x13F8, 0x13FD, 1, -8),
   (0x1C80, 0x1C80, 1, -6222), (0x1C81, 0x1C81, 1, -6221), (0x1C82, 0x1C82, 1, -6212),
   (0x1C83, 0x1C84, 1, -6210), (0x1C85, 0x1C85, 1, -6211), (0x1C86, 0x1C86, 1, -6204),
   (0x1C87, 0x1C87, 1, -6180), (0x1C88, 0x1C88, 1, 35267), (0x1E9B, 0x1E9B, 1, -58),
   (0x1FBE, 0x1FBE, 1, -7173), (0xAB70, 0xABBF, 1, -38864)]

/-- Where the uppercase form has several characters, the form that ignores case has their lowercase
forms. One capital has two letters though it is its own uppercase form.
-/
def foldExpansions : List (Nat × List Nat) :=
  (0x1E9E, [0x73, 0x73]) :: upperExpansions.map fun (n, form) =>
    (n, (form.flatMap (lowerChar ∘ Char.ofNat)).map Char.toNat)

end Fxml.Text

/-! Letter case of whole texts: words with a capital, case exchanged, and forms that ignore case. -/

namespace Fxml.Text

def titleChar (c : Char) : List Char :=
  if c.toNat < 128 then [c.toUpper]
  else
    match titleExpansions.lookup c.toNat, mapped? titleProgressions c.toNat with
    | some form, _ => form.map Char.ofNat
    | none, some n => [Char.ofNat n]
    | none, none => upperChar c

def foldChar (c : Char) : List Char :=
  if c.toNat < 128 then [c.toLower]
  else
    match foldExpansions.lookup c.toNat, mapped? foldProgressions c.toNat with
    | some form, _ => form.map Char.ofNat
    | none, some n => [Char.ofNat n]
    | none, none => lowerChar c

/-- Every character with a case exchanged for its other form; `before` holds the characters already
passed, last first.
-/
def swapFrom (before : List Char) : List Char → List Char
  | [] => []
  | c :: rest =>
    let form :=
      if isUpper c then lowerIn before c rest
      else if isLower c then upperChar c
      else [c]
    form ++ swapFrom (c :: before) rest

/-- Words with a capital at their start; `before` holds the characters already passed, last first. A
word begins after a character without case.
-/
def titleFrom (before : List Char) : List Char → List Char
  | [] => []
  | c :: rest =>
    let form := if before.head?.any isCased then lowerIn before c rest else titleChar c
    form ++ titleFrom (c :: before) rest

/-- Text with a capital at its start and everything else in lower case. -/
def capitalized : List Char → List Char
  | [] => []
  | c :: rest => titleChar c ++ lowerFrom [c] rest

/-- Whether words start with a capital and go on in lower case. `inWord` says that the last
character had a case.
-/
def isTitleFrom (inWord : Bool) : List Char → Bool
  | [] => true
  | c :: rest =>
    if isUpper c || isTitle c then !inWord && isTitleFrom true rest
    else if isLower c then inWord && isTitleFrom true rest
    else isTitleFrom false rest

/-- Whether text has letters with a case, and capitals exactly at the start of words. -/
def isTitleText (cs : List Char) : Bool :=
  cs.any (fun c => isUpper c || isTitle c || isLower c) && isTitleFrom false cs

end Fxml.Text
