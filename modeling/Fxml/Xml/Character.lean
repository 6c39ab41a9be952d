import Fxml.Text.CharClass

/-! Code points beyond ASCII that may stand in the name of an element or attribute: letters and
ideographs start a name, and digits, combining characters and extenders continue it. -/

namespace Fxml.Xml

def nameStartRanges : List (Nat × Nat) :=
  Text.rangesOf
    [0xb3c9b9bc6f1b4ab1a901ab1e192a8a8a8a8ceab5ab2a8aaa8d03eb283197d3d9cb4a1b01ac6afba1b97ae3ae2803,
     0xa9aead2b9ddc29f1aa9b4bc8aead2b9bfc491b38cc6f3019828abae1acbe01f491f93f5aea3a11d4818bd4879bfb,
     0x9f4ca91ae2aaafc11aafcac9c9a8a9cbaacdc4aa9f38cbb9aead2b9bfd48b48cca9aead2aaa8ae92ac28ab849a9,
     0xb1d4f6484afc71cb8a19a8a9a9b8a8aaaeabf8b8a9b8a9c7dd19a8ad58429f4f1ae2aaafc49a8d4ca91ae2aaafc4,
     0xbdbd2f931db32f0068918d895ea8a9819b8b8a18958a9c9c8a8a8a8aae8c9c8a8a8c18a8a8a5ca9a8aaa9a8a1e4,
     0xb4652b316d4605c2361f4b1931d1b218381a38d027aa218b9c8a54eaaec1ddbbceaac8aeac6be3a8a8a8afbdbd4]

def nameExtraRanges : List (Nat × Nat) :=
  Text.rangesOf
    [0xea897aa291b9e1bcf1a897a810191bba9be1e418f91e1fb18c718a9a8aaae2a82b14bc738e49b3d01f5993018f62,
     0xbaaaeb7aa281828a1baaccb79b291f1991ab9cda897aa29193aaaafa897a82b193ab9dca8a78b291b9b18a1ab9b,
     0xddab2a69d8a8a8c191f9f791bda8a19adb883191a81c1eb8a0391f18a1baabdb79b29182981baaaeb79b29182981,
     0xae319b9c41cadd48c4478dc1f24018aecc2a8ad]

end Fxml.Xml

/-! Characters of XML documents. -/

namespace Fxml.Xml

def isSpace (c : Char) : Bool := c == ' ' || c == '\t' || c == '\r' || c == '\n'

def isValid (c : Char) : Bool :=
  if c.toNat < 32 then isSpace c else c.toNat != 0xFFFE && c.toNat != 0xFFFF

/-- Whether a character may start a name. The colon is a letter like any other. -/
def isNameStart (c : Char) : Bool :=
  if c.toNat < 128 then Text.isAsciiAlpha c || c == ':' else Text.inRanges nameStartRanges c.toNat

def isNameChar (c : Char) : Bool :=
  isNameStart c
    || (if c.toNat < 128 then Text.isAsciiDigit c || c == '-' || c == '.'
        else Text.inRanges nameExtraRanges c.toNat)

def isCharNumber (n : Nat) : Bool := n.isValidChar && isValid (Char.ofNat n)

def predefined? : String → Option Char
  | "lt" => some '<'
  | "gt" => some '>'
  | "amp" => some '&'
  | "quot" => some '"'
  | "apos" => some '\''
  | _ => none

end Fxml.Xml
