import Fxml.Text.CharClass

/-! Code points beyond ASCII that may start or continue an identifier. -/

namespace Fxml.Text

def identifierStartRanges : List (Nat × Nat) :=
  rangesOf
    [0x828aa41a9c4a5e5bda381185f8bd4ad4291a12aa21ab2a8aaa8f8aac9aca028a881cf1b1d917ae3ae2e8d8b18a52,
     0x8cbc8aead2b9bfdf18291818b28cd6b795a2daf2ea18183838c8a18dd2e8d9a184938c1831e3d3a8928bab19819,
     0xa8a2882aa9f38cca9aead2b9bfc18839828b28cca9aead2aaa8192ac28ab849a9a9aead2b9dd918b19f1aa9e1892,
     0xc92ed93a91ae8928b85aaa81a29829a9848cca91ae2aaafd8f39b8bab38cf1ae2aaafd68f2b1cac9c9a8a9cbaacd,
     0x8e8ad4a28d1c1da819c8cbdd928d2a5c61cc3b4af801894be28acb8b18a91a8af2aca8a9b7ee18af5b7eb8a81af2,
     0x82aac1f192f1a2e19281a1ca11e93a82bb511cdbd2192f1e4a01bba87ae1bba8aebba84bba85bba8aebbac15aa5b,
     0xaba58181bb4b1aa5b4b3b5b19e1d3f6fa2e5e318b21c6a1e2f693db5c1cbd3a6e3b1d01e8a8581831c018d8c4b6,
     0xf1a8a8a8fdb8a91b8d8e41c1928e18d61eaaec1ddbbceaac8aeac6be3a8a8a8afbdbd4bdbd24901f72e8c9adaba5,
     0xa2d31aa5eba931aafd21dcbc8181a3af401eaeaeaeaeaeaeaea1e292881f6b8e8ad4d19cbfc43871585a28dcebb,
     0xa8cdf796f1b6e3e2abaaaf193ca8a9ef7be41b8185f11be392e5d29b1f1cc14bd5c01c1235901f76419001f196f3,
     0xe3a61fd1aa5aeaea1dbdbdd1a81a1ba938a8bcb9c8a96c8ce2d2faa8385acb191ac928d3e581c3a3e2b1b3c19,
     0x93d4d71a8a8a8a8c8a88719195d6bf7b2933fa12a4b51a9a9a8acac1a91a8ecd1ef4951bd55d040286de2d1b4652,
     0xf4db4db4b2d32b5cafdb4bd3b1d4ed3e1f38686cc3c14c6e01a71b4d1be1a9aa2a93ab1c4abdbdbdce3bf6c193f,
     0xff6f0193b1d2b19aa2a01e3a1e2b1e2b8c9ab5a8bde0181a95ad93fb1d2a1e64c019aeae1aa1a9aeae1aa1d1b691,
     0xe2c3c2f592b5d2918b1c3f119f95d35b4e1a6e1a687811f5192e1a2b1d2b1d6c3b3afc4c3cc3b5c3aaab8289019,
     0xcd18b28cca9aead2b9bff4e58191ae1aba8aed2183a92c48a8e2bf1f5d18ca4918b8e3b4b38394c5e18b9a7c6d1,
     0x8d38a892e4bff318a882f2a9afb8bf84f7d61b5a72ee4a38118e1a5c78d2f5d4ba5e59728a9d2f5f3ad2bb2c6f32,
     0xd115b03a2e51f4193618218e72a28158f1f3a9ada38e2d4a9ae961d3a68a2c4a81814811b28c2d5c18e2881f4b1,
     0xd23291f6731d38a9901c1b018ea11902f79621a2ec284b92f5b2d3a2e11a2e3818701a7602e011a277e50282841,
     0x8acabab3aeafbba801aea8ab1abb9b8b9ae01ac21f4531918181cc1ea51d044b1691ba2ae5a44a9aeab8531281b5,
     0xd622881b01c7c03ae1a9abaed632b5b2d3a05892eb1c5a47e3d643fa83ae3a83ae3a83ae3a83ae3a83a83bb25aec,
     0x818700194f33321d050182acaae82a91a8ababaeabb8a9a8a8a8a8a8b8a9aaa8a8a8d8f8a8aba91a8b8a9aa3ab,
     0xa1511b472d301840686461f190231bd33]

/-- Further characters that may stand in an identifier after its first character. -/
def identifierExtraRanges : List (Nat × Nat) :=
  rangesOf
    [0xac5caaa81ab938a181a49182a1c31a3f388391bba9bdbee418fe396a19118a9a9a8ac5a14cc73883f5191118f62,
     0x97aadb191b9d2aaaafa897ac18cb1d28cab9dca897ab8f191b9b18a1ab9bea897aa291b9b1ea92aaf684af2b5fd7,
     0xb18a1baaaea987b9291b9c1981baaaea897aa291b9c1981baaaea887c9291f18a1baaccc78b291b9b1a81ab9bea8,
     0xbaaadbd191ab2d418a1b4aa1e9ab2a69d8a8a8c191f9f791bdc191a883191afd1fa8e79b91ffa8add8f01aa291b9,
     0xad1f291fa1bc3a91a7cd7a190291b1b1db1f618822a1aaa491b8a1f39019f39e3ad3b946181a1a8031e1ab1e1bce,
     0xf39418e12af775b1c8dc1c718c298011f7f03ab8f8dc2aaf6191f9191b296d1d591bc1f3ad181a291c18286ca6f1,
     0xd18691b18c19182d186bd5c1a3fd3a1e192f91b192b69c218dc838d8c8924992199491d8e0191e06279a51db501,
     0x835291e44ce228b438e3119f318e491903a939cf192f1a4318d447491b9afd539eca58a9e9baa8b6aa491b9918d1,
     0xb1ab91d196ad18d59e91ad1d4af91e5881a1e5bb19ba184e1e6ab71ba6a1a329a659191be7019e428da95be9aa,
     0x91de1c219191c1a21918282b219c381bee2391d1b2a218d91a192903cceb9b18a1ab9bea987bf91eb19428fb1b21,
     0x9ac9691918aea9a8cdb71d1ad2979192fafe26f1f5a1a1891bae9591d38cebe87191d19a8abb9adf0191e42e1b63,
     0x96a162ad22bf3ebf91dccf301e2bd5a41119c52649c18a21b81e6a8e67191a3ec7cf491f2191a5554ba159191ca,
     0xf53f04200391f221191eee51ef272d1e78d4591a1ee04ca9aeb82ae9252e1acf28f189196de69001]

end Fxml.Text

/-! Code points beyond ASCII that count as word characters: letters, marks of a
number, and digits of every script. -/

namespace Fxml.Text

def otherLetterRanges : List (Nat × Nat) :=
  rangesOf [0x98448a8a8a8a8a8a8a8d619f26df507418c75718802897258a751]

/-- Characters that may start an identifier without being letters. -/
def nonLetterRanges : List (Nat × Nat) :=
  [(0x1885, 0x1886), (0x2118, 0x2118), (0x212E, 0x212E)]

/-- The decimal digits beyond ASCII; each range is a run of whole tens that starts at a zero. -/
def decimalRanges : List (Nat × Nat) :=
  rangesOf
    [0x91f0191f2491f0191f619194191f6191f6191f6191f6191f6191f6191f6191f6191f6191d3691f0391f02918413,
     0x91f241591f2691f2191f291f0391f491f42191f0740191f91f0291f2191f6291f91f429190291d5491f491f053,
     0x91f0191f6391f63191f4191f4691f4191f4191f6591f6191f2591f249192291d79190291d54191f02491f062,
     0x91f221191f21391f4691905496d616691f0291f2191f6264]

/-- Characters that stand for a digit without being decimal digits, such as superscripts. -/
def otherDigitRanges : List (Nat × Nat) :=
  rangesOf
    [0xa1e4206181a5781d302be5216181a81a81f6118a81b18a3181c181c181f27191fdc8e2238951381862118e9a62]

end Fxml.Text

/-! Code points beyond ASCII that stand for numbers. -/

namespace Fxml.Text

def numberRanges : List (Nat × Nat) :=
  rangesOf
    [0xf619194191e51a281e95191851e9191c61c1f51db91f6191f6191d51dd91f6191d3691f0391f0291a462ab8e9a62,
     0xba6f0391fdc8f20291f91f0291f2191f6291f91e42a190291d5491f291f91863aa651b2823191f0191d14b2f0191,
     0x91f291f0391f491b32d90591d729194517e1859194e1aff391b12b835af181a38a1418a552d3f611d2f11b7f231c,
     0xaf39d681901d5bf1b9942df2cc118185ea3ff56191b13cf028918e3bd4a3e259a287d1c5e5791f241591f2691f21,
     0xb1f4191f4191f6591f6191f2591c73b2819192291d791902d3f02e961bb591f32e3f449196db15ea5f93f951cc11,
     0xf4691905496e21283d51b2a1126e2f341ea91f0291f2191a6724e51c502c2f20191f0191c43c3f63191e31a2d46,
     0x91c435c1b071e1ac5d11baaaa783419190281e17291]

def numericLetterRanges : List (Nat × Nat) :=
  rangesOf
    [0x8f241bd618faa8c278a8a8b48a018c268b418d48918f39958a8818f58c218a8c8b8b62118b4418f4618e718d0023,
     0x8e718c58e8d4896348d718d8a0248e4618810588531882228c6438e0228e118e5718aad19c02890628818e201,
     0x8a25328b0601881038f61418c38b28e158828918931891048f78e718b418c003028a58a8f38a78d8818d6116,
     0x8b40311]

end Fxml.Text

/-! Word characters, digits and identifiers of every script. -/

namespace Fxml.Text

/-- Word characters: letters and numbers of every script, and the underscore. -/
def isWord (c : Char) : Bool :=
  let n := c.toNat
  if n < 128 then isAsciiAlnum c
  else
    inRanges numberRanges n || inRanges otherLetterRanges n
      || inRanges identifierStartRanges n && !inRanges nonLetterRanges n

def decimalValue? (c : Char) : Option Nat :=
  if isAsciiDigit c then some (c.toNat - '0'.toNat)
  else if c.toNat < 128 then none
  else
    (decimalRanges.find? fun (first, last) => first ≤ c.toNat && c.toNat ≤ last).map
      fun (first, _) => (c.toNat - first) % 10

def isDecimal (c : Char) : Bool := (decimalValue? c).isSome

def isDigit (c : Char) : Bool :=
  isDecimal c || (128 ≤ c.toNat && inRanges otherDigitRanges c.toNat)

def isAlnum (c : Char) : Bool := c != '_' && isWord c

def isNumber (c : Char) : Bool :=
  if c.toNat < 128 then isAsciiDigit c else inRanges numberRanges c.toNat

def isAlpha (c : Char) : Bool := isAlnum c && !isNumber c

def isNumeric (c : Char) : Bool :=
  isNumber c || (128 ≤ c.toNat && inRanges numericLetterRanges c.toNat)

def decimalNumber (digits : List Char) : Nat :=
  digits.foldl (fun value c => 10 * value + (decimalValue? c).getD 0) 0

def isIdentifierStart (c : Char) : Bool :=
  if c.toNat < 128 then isAsciiAlpha c else inRanges identifierStartRanges c.toNat

def isIdentifierRest (c : Char) : Bool :=
  if c.toNat < 128 then isAsciiAlnum c
  else inRanges identifierStartRanges c.toNat || inRanges identifierExtraRanges c.toNat

def isIdentifier (s : String) : Bool :=
  match s.toList with
  | [] => false
  | c :: rest => isIdentifierStart c && rest.all isIdentifierRest

end Fxml.Text
