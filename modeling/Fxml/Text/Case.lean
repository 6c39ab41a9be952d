import Fxml.Text.CharClass

/-! Letter case beyond ASCII. A progression `(first, last, step)` stands for every
`step`-th code point from `first` to `last`. -/

namespace Fxml.Text

def lowercaseProgressions : List (Nat × Nat × Nat) :=
  progressionsOf
    [0x9a82b98b98f9ab99baac98baa9aabacb98b9ac98b98d99c98baab999acbae59a829ae6a9fa9f2d498d98b198a52,
     0x99b98b98a9b9ae2a9ac99a9a4c398b29bb98caac5989419cf399819b4a9b019a81d98a99b98b9d9aa7caab989aa2,
     0x9d919f919fb19d919f9a841a9f9ac22a019f72871981b0249d97319ab9a5815598596a8419ac1bac6a1a84a9f5c6,
     0x8d98d98c398c99c98e519c19298e198a7199a9ab19f9199b9b9199a9ac98f99a9c919f919f919fb9d1919f919fb1,
     0x99aa3c2ac5c244798e98a9d4d198daa81989aa41c9e9aa9aadaca99c98a9f5f053993c15198d9f1a498d9b9199b9,
     0xa5029cd19e905749f11819c1a9a5e641999aad3a81faadae1e98eaa2a999aabaada81baaa9819ac7a999ac1e029,
     0x993b3992a9eb3993b36269f3906259f3e1759a6e042981a995a9ab98c0799a9ea9e1a9a1c329b49129f4e132993,
     0x9da983b39da983b39da983b39da983d39b3b3993b3993b3993b3993b3993b3993b3993b3993b39a1a9d9aaa9bb3,
     0x994c0059b2a991d64398a9da983b3]

def uppercaseProgressions : List (Nat × Nat × Nat) :=
  progressionsOf
    [0xbae1b98b98b988198c989aaa999aa9aabaa9aca99a99c9aa99a9bb999aa9aaa99cac9ae5bae1bae6a49ea9e2803,
     0x84969a6b989aab98eae2c9ab98c4981a9f19aa9aaa999aaf989198caaa44aea9a9aab99a9981a87a999aab98ba82,
     0x9f91aec19d919f919fb19d919fa1a841a1ac229059ab9a5b3249d21b23198e98a9d4a1559d4bae31bac19ae6a1a,
     0xa9aeb999aa969f59643993b64198c29f1b398e99b19bb9a9aef9cc98b9ab9ac98d98f049bc19cd19bd19bd19b911,
     0x98d3aae98f98a9a9ae1a9ca9b9ac2caabaada819acb1ac7cac1812aa3c2ac5e154798daa91a841a9a9198b98a9,
     0xbb99b98b989aab3993b3993b3993946269f3906259f3e5759a6b53399a9ea9e1a9a1d329b49129f4e032993c5435,
     0x83a4983a4983a4983a4983f3993b3993b3993b3993b3993b3993c39ec98a9ca9ba99c39ea9fb9ba99b3993b39fa9,
     0x993f993f993f104994e640198a49]

def titlecaseRanges : List (Nat × Nat) :=
  [(0x1C5, 0x1C5), (0x1C8, 0x1C8), (0x1CB, 0x1CB), (0x1F2, 0x1F2), (0x1F88, 0x1F8F),
   (0x1F98, 0x1F9F), (0x1FA8, 0x1FAF), (0x1FBC, 0x1FBC), (0x1FCC, 0x1FCC), (0x1FFC, 0x1FFC)]

/-- Case mappings to lower case: a progression and the distance to the lowercase partner. -/
def lowerProgressions : List (Nat × Nat × Nat × Int) :=
  mappingsOf
    [0x989c26989e3298ba989a3699aa989c3698aaaa9c4698caac996398aaac5baae1baaccaae5a48019ea8019e2803,
     0x99aa989c6698aa98bc6698aa989c6698aaac9c5698aa56989e4698ca989a46989e4698ae36989a3698aa989e26,
     0x9881aa82ab0498aaae49f5198990398aaaa9c98baa82baa829c98aa989c98aa989c9881a98ca989e6698aaaa9a66,
     0xae7199a80298aa119aac1198f8539891a98caaaa44aa819e12989a12989d0698aa98b82125989d0598aa989e2125,
     0xaae31baac19e398aaac6a1aa84968019f398429f19b049aba989d198aa98bf6198eaae2918298c4801981a801982,
     0xad755398a1aac22905f75319abf75319a5b324829d98467229f11b2318034398e8034398a803439d4a1558419d4b,
     0x989b529bc192989b22999f19991f19f91f19f91f19f93f19f91f1aec1f19d91f19f91f19fb1f19d91f19fa1aae31,
     0xa98c2849f1e58798fb1204989d750498c9725398a5492989b73999f7399c1d1989f33999f199d1f03999f199c192,
     0xa98ba98ab7025989d702598997715989f602598aaacbd1715989b1761989d571598aa98968419f59643c6993b641,
     0xaaa2caaabf1154298aa98daa819f0021298aaaab1aac7caac1812aaa3c2aac5e1547a98daaa91aaa419d71259991,
     0x89f3198aaae198053989950542989b21542989b4054298af02542989902542989d22542989d32542989f0254298a,
     0xe1199ae119eae119e1ae119a1d328219b49128219f4e032801993c5435a98d3aaaea98faaa9f51212989d025429,
     0xc01994942578019f3906258019f3e5758029a6b533]

def lowerExpansions : List (Nat × List Nat) :=
  [(0x130, [0x69, 0x307])]

/-- Case mappings to upper case: a progression and the distance to the uppercase partner. -/
def upperProgressions : List (Nat × Nat × Nat × Int) :=
  mappingsOf
    [0xca0398b998e998c998b9aabe06989f2119899acb9ac5b9ae1b9acaf1798a9ae5aa63989f79eaf79e2b5e17298d62,
     0x98b9a82ad329899ae1ab989998ab989998ab989998e86198a998c998b9aac998b998d998b9acbc0498ce05989998,
     0x98ab2698a93699ab36989b46989c702598987025989e70259899a81d998ae712599b998919a82c9ae4c998ab9899,
     0x98ba02542989e5715989812542989d4698994698a81254298982154298ad3698ae2254298993698ce32542989d26,
     0xd6698ed12989966999912989b66989c2154298cb66989e0254298ab6698be17159881b5698b956989a771598ad46,
     0x89b7198ad71999f71989f79819d7989f7982a9119a9b1198f5c049ac998c9aac585298f42c40542989a5054298b1,
     0xac1b9ac6a19a84af329f19f79f3d6998b998bf7298af43989e1989f32989b529899ae2af1989b51989d3198c9619,
     0x9d0303989b0303999f030398993303989b330398b024f19d9731806319ab806319a5a155f319d4a69ae31ad39899,
     0x91829fb1829d91829f99ae31ed6198e9ac22b618612129892c176198c81021298963c0611298991103989f620398,
     0xe198c8299f18299a29114398d18299b6c73999843999804999813999c529b9c229991829f9182aec1829d91829f,
     0x9d4d1998d9aa919aa41b1998b998f9acaf1125989d212598c998af319f5f053b6993c151998df39f1a4f698955,
     0xe998f9aad9ae1c19aa2b8419899aad998d9a81b9aab19ac7c9ac18129aa3c29ac5c2447f724398ef724398af7243,
     0xc043d1199ad119ead119e1ad119a1c32f119b4912f119f4e132f7993a0615f367229f11d3f74398d351998d39aa,
     0xb01994b4257f79f390625f79f3e175f719a6]

/-- Vowels with an iota below, eight small ones and eight capitals in each of three rows. -/
def iotaExpansions : List (Nat × List Nat) :=
  [(0x1F80, 0x1F08), (0x1F90, 0x1F28), (0x1FA0, 0x1F68)].flatMap fun (first, capital) =>
    (List.range 16).map fun i => (first + i, [capital + i % 8, 0x399])

def upperExpansions : List (Nat × List Nat) :=
  iotaExpansions ++
  [(0xDF, [0x53, 0x53]), (0x149, [0x2BC, 0x4E]), (0x1F0, [0x4A, 0x30C]),
   (0x390, [0x399, 0x308, 0x301]), (0x3B0, [0x3A5, 0x308, 0x301]), (0x587, [0x535, 0x552]),
   (0x1E96, [0x48, 0x331]), (0x1E97, [0x54, 0x308]), (0x1E98, [0x57, 0x30A]),
   (0x1E99, [0x59, 0x30A]), (0x1E9A, [0x41, 0x2BE]), (0x1F50, [0x3A5, 0x313]),
   (0x1F52, [0x3A5, 0x313, 0x300]), (0x1F54, [0x3A5, 0x313, 0x301]),
   (0x1F56, [0x3A5, 0x313, 0x342]), (0x1FB2, [0x1FBA, 0x399]), (0x1FB3, [0x391, 0x399]),
   (0x1FB4, [0x386, 0x399]), (0x1FB6, [0x391, 0x342]), (0x1FB7, [0x391, 0x342, 0x399]),
   (0x1FBC, [0x391, 0x399]), (0x1FC2, [0x1FCA, 0x399]), (0x1FC3, [0x397, 0x399]),
   (0x1FC4, [0x389, 0x399]), (0x1FC6, [0x397, 0x342]), (0x1FC7, [0x397, 0x342, 0x399]),
   (0x1FCC, [0x397, 0x399]), (0x1FD2, [0x399, 0x308, 0x300]), (0x1FD3, [0x399, 0x308, 0x301]),
   (0x1FD6, [0x399, 0x342]), (0x1FD7, [0x399, 0x308, 0x342]), (0x1FE2, [0x3A5, 0x308, 0x300]),
   (0x1FE3, [0x3A5, 0x308, 0x301]), (0x1FE4, [0x3A1, 0x313]), (0x1FE6, [0x3A5, 0x342]),
   (0x1FE7, [0x3A5, 0x308, 0x342]), (0x1FF2, [0x1FFA, 0x399]), (0x1FF3, [0x3A9, 0x399]),
   (0x1FF4, [0x38F, 0x399]), (0x1FF6, [0x3A9, 0x342]), (0x1FF7, [0x3A9, 0x342, 0x399]),
   (0x1FFC, [0x3A9, 0x399]), (0xFB00, [0x46, 0x46]), (0xFB01, [0x46, 0x49]),
   (0xFB02, [0x46, 0x4C]), (0xFB03, [0x46, 0x46, 0x49]), (0xFB04, [0x46, 0x46, 0x4C]),
   (0xFB05, [0x53, 0x54]), (0xFB06, [0x53, 0x54]), (0xFB13, [0x544, 0x546]),
   (0xFB14, [0x544, 0x535]), (0xFB15, [0x544, 0x53B]), (0xFB16, [0x54E, 0x546]),
   (0xFB17, [0x544, 0x53D])]

/-- Characters that are passed over when the case of a neighbouring letter is looked for. -/
def caseIgnorableRanges : List (Nat × Nat) :=
  rangesOf
    [0xa91afe41892c2b18c48aa1b1dc18d58a9a9a8ac5a68e8823ec738a9a18d9df728779b8d8a8d88118a8c48c18f8f4,
     0x9f38cab9d9d8a79b8b39d2891bd8b78828e19b1ec8dfd8a88797a5ff9818d5ac5f2938b8da1b7a1c31a3f38a8a4b,
     0x91bd9a79d39d29e8f8b8b78e39c1981baaeaa8878c8b68d18e78f39c1981891ba8b8b78adf29d28d9acd8a79c18c,
     0x8f9b8e1b92ad9a39b9adabf418a1b4aa1e9acad1878a8a8c39b11da8a181b8b4181c1eb8b318aa8189118e39d28,
     0x8858b91ffb8a8aea8b78b9c33af8a19daf618b49a018c6ce58e8ca1b891ea99019f39f39e3ab661a94118f31882,
     0xe1ae1ae1ac1aa8e76c41b48e1e7b69c8f8deac1aab21d9019bfb7aa8c9a897aa9bb949d181958e8aca896ba6e391,
     0x8f14db4328f2476ae31de318eccbd48e27886f39418828e71aa619c16584c6c1928e18a91aca6cb8b8b1991cd19,
     0x918d19b9bdb019e28a29bbb896af5a1a3ff48e192b398328e9a38d8c8919ca851a838f1194f19921bd38a91abb41,
     0x8868a8c48c18f8818a528b8b4f1d18cf1e70182c228964748d8b8a71aa1cd418a9e9f18c38a9e9baa8c68c18c48,
     0x8b9bba6ab19b8a5e1f68c71ba6a1a329c06be7019e428da95be9aaf01181a95ade002ce228b438a001ae28c019e5,
     0xe219c39a9fbf539a9d8add218838aabfc03ccee48c9a79e2fc89428f9a8ba8418bbb181d69d18f7facd4ab68b18d,
     0xdb719a9aebd2b218adaef269ac1f5abda1891bbd9591948d9bb9228d8a99049a81c04cabbae418adb8a8b519a8bf,
     0xbf1a1a9401e2bd5d3111ba9f3269aeabc10049a9901828018c102ba1ec7c8723381c74219c358a8c99118aea9a8c,
     0xf53902f31f38a006003c8625fe51e9472be78965d1e04ca9aeb82ae9252e1acf28f189196de6c763ad22bf3e]

/-! Letter case: classes and mappings for every script. -/

def isLower (c : Char) : Bool :=
  if c.toNat < 128 then isAsciiLower c else inProgressions lowercaseProgressions c.toNat

def isUpper (c : Char) : Bool :=
  if c.toNat < 128 then isAsciiUpper c else inProgressions uppercaseProgressions c.toNat

def isTitle (c : Char) : Bool := inRanges titlecaseRanges c.toNat

def isCased (c : Char) : Bool := isLower c || isUpper c || isTitle c

/-- Whether text has letters with a case and all of them are lowercase. -/
def isLowerText (s : String) : Bool :=
  s.toList.all (fun c => !(isUpper c || isTitle c)) && s.toList.any isLower

/-- Whether text has letters with a case and all of them are uppercase. -/
def isUpperText (s : String) : Bool :=
  s.toList.all (fun c => !(isLower c || isTitle c)) && s.toList.any isUpper

/-- The partner of a code point under a table of progressions with a distance. -/
def mapped? (table : List (Nat × Nat × Nat × Int)) (n : Nat) : Option Nat :=
  (table.find? fun (first, last, step, _) =>
      first ≤ n && n ≤ last && (n - first) % step == 0).map
    fun (_, _, _, distance) => (Int.ofNat n + distance).toNat

/-- Applies a case mapping: an expansion if the table has one, else the partner, else the
character itself.
-/
def mapChar (expansions : List (Nat × List Nat)) (table : List (Nat × Nat × Nat × Int))
    (c : Char)
    : List Char :=
  match expansions.lookup c.toNat with
  | some form => form.map Char.ofNat
  | none =>
    match mapped? table c.toNat with
    | some n => [Char.ofNat n]
    | none => [c]

def lowerChar (c : Char) : List Char :=
  if c.toNat < 128 then [c.toLower] else mapChar lowerExpansions lowerProgressions c

def upperChar (c : Char) : List Char :=
  if c.toNat < 128 then [c.toUpper] else mapChar upperExpansions upperProgressions c

/-- Whether the nearest character that has a say is a letter with a case. -/
def nextIsCased (cs : List Char) : Bool :=
  (cs.find? fun c => !inRanges caseIgnorableRanges c.toNat).any isCased

/-- The lowercase form of a character between others; `before` holds those in front of it, last
first. A capital sigma after a letter and before none is written as a final sigma.
-/
def lowerIn (before : List Char) (c : Char) (rest : List Char) : List Char :=
  if c = 'Σ' then if nextIsCased before && !nextIsCased rest then ['ς'] else ['σ']
  else lowerChar c

/-- Lowers text from the left; `before` holds the characters already passed, last first. -/
def lowerFrom (before : List Char) : List Char → List Char
  | [] => []
  | c :: rest => lowerIn before c rest ++ lowerFrom (c :: before) rest

def lower (s : String) : String := String.ofList (lowerFrom [] s.toList)

end Fxml.Text
