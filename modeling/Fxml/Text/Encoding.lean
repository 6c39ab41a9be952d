import Fxml.Text.CharClass

/-! Text as bytes. -/

namespace Fxml.Text

inductive Encoding where
  | utf8
  | ascii
  | latin
  | utf16 (bigEndian mark : Bool)
  | utf32 (bigEndian mark : Bool)
deriving DecidableEq

namespace Encoding

/-- The encoding with a name; case, hyphens, blanks and underscores do not count. -/
def ofName? (name : String) : Option Encoding :=
  let plain := (name.toList.filter fun c => c != '-' && c != '_' && c != ' ').map Char.toLower
  match String.ofList plain with
  | "utf8" | "u8" | "utf" | "cp65001" => some utf8
  | "ascii" | "usascii" | "646" | "ansix3.41968" => some ascii
  | "latin1" | "latin" | "iso88591" | "l1" | "8859" | "cp819" => some latin
  | "utf16" | "u16" => some (utf16 false true)
  | "utf16le" => some (utf16 false false)
  | "utf16be" => some (utf16 true false)
  | "utf32" | "u32" => some (utf32 false true)
  | "utf32le" => some (utf32 false false)
  | "utf32be" => some (utf32 true false)
  | _ => none

def bytesOf (count : Nat) (bigEndian : Bool) (n : Nat) : List UInt8 :=
  let low := (List.range count).map fun i => UInt8.ofNat (n >>> (8 * i) % 256)
  if bigEndian then low.reverse else low

def encodeChar? (e : Encoding) (c : Char) : Option (List UInt8) :=
  let n := c.toNat
  match e with
  | utf8 => some (String.singleton c).toUTF8.data.toList
  | ascii => if n < 0x80 then some [UInt8.ofNat n] else none
  | latin => if n < 0x100 then some [UInt8.ofNat n] else none
  | utf16 big _ =>
    if n < 0x10000 then some (bytesOf 2 big n)
    else
      let rest := n - 0x10000
      some (bytesOf 2 big (0xD800 + rest / 0x400) ++ bytesOf 2 big (0xDC00 + rest % 0x400))
  | utf32 big _ => some (bytesOf 4 big n)

def mark (e : Encoding) : List UInt8 :=
  match e with
  | utf16 big true => bytesOf 2 big 0xFEFF
  | utf32 big true => bytesOf 4 big 0xFEFF
  | _ => []

def decodeByte? (e : Encoding) (b : UInt8) : Option Char :=
  match e with
  | ascii => if b < 0x80 then some (Char.ofNat b.toNat) else none
  | latin => some (Char.ofNat b.toNat)
  | _ => none

end Encoding

/-- What stands for a character that an encoding does not have. -/
inductive Substitution where
  | omission
  | questionMark
  | escape
  | reference
deriving DecidableEq

namespace Substitution

def ofName? : String → Option Substitution
  | "ignore" => some omission
  | "replace" => some questionMark
  | "backslashreplace" => some escape
  | "xmlcharrefreplace" => some reference
  | _ => none

def text (s : Substitution) (c : Char) : List Char :=
  match s with
  | omission => []
  | questionMark => ['?']
  | escape =>
    if c.toNat < 0x100 then '\\' :: 'x' :: hexDigits 2 c.toNat
    else if c.toNat < 0x10000 then '\\' :: 'u' :: hexDigits 4 c.toNat
    else '\\' :: 'U' :: hexDigits 8 c.toNat
  | reference => '&' :: '#' :: (toString c.toNat).toList ++ [';']

end Substitution

end Fxml.Text
