import Fxml.Text.CharClass

/-! Code points beyond ASCII that have no printed form: controls, separators other
than the plain space, surrogates, private use and unassigned code points. -/

namespace Fxml.Text

/-- Characters that are always written by their number. -/
def unprintableRanges : List (Nat × Nat) :=
  rangesOf
    [0x8a428b118184cc18a9d38829a69c7d1e419c799689038f282fbc3f878c9b69f48e168d28a881bf9b1318d184802,
     0xa9c8c8b19e8b8818f28c8a18c91a2ea8deaac9bbe8a9b8b8b8818f29bbf8c9a39e8bbafd9b9a19daa8818f29b991,
     0xa19928838c8e1ce2d1ada9d8caebd1acabab8a8bad8caf8b91b29e8bbcec9b9a19e8b8818f29b9918c881ed19de1,
     0xd918a8fbaa819a8a1893ab28c8b3992bf8c8c68c8e1c1b8b19d8bdbed8c8a19e8b18838c8f2eb19d9a9c8bed8c8,
     0x819d8a49d8a59d8a8819d8a759aca8f03c4e18828d4885bd48911f3d9b19f8a8e9838a8938e8a8bc4e3bb7b1c9b1,
     0x88491f01cc5ea31dc18f1db1db19f31b1b8c8e1b1d2819381f2ea31ad3890219f9f21db3a949c019d8a78829d8a8,
     0x8a8919f9f49f9f201cc5fc19c5ed7a82ad7fd61886ae1186849f1db1dc19e38a019f7ac1db3bd5a1e9b5aabd1bd1,
     0x93d1be979aca8e5ce358949d243c2c1838321bd12e1a4e1a4ae18c39b8286f9382a18c9c28f9f18828e69848a8a,
     0x972b2d358187ae5117886b1d218f318c5c8519f218801cd193f23b1a318b394f7188188188188188188188188181,
     0xdb19f71bd788188181f9f9f91d3f28519b19f181878a4bc18f11af3a1d61dd1ff01f97db1ac7f2e8a8bcc13f,
     0xac9f9f9faf72b8128ebd8c28c6db5f3aef69e76f1e718b8b8a8e8b3ceb181d4b519f55f73419004ba6b83b1d4652,
     0xbd4db19f3295f1be48f3cc5cf381d4bd3e1a6ae3902f5e5aae18931ae5bccc7194f19828b8c28b38d19bc181881,
     0xacc3aa4cb8c2f5a1f9118839aab8d58a9fc01a18b58ff29191f281874a01b8818828c18b8818828d1a1d6f95bd4,
     0xb9c8b5884d44b1ff5ec6c1c6e6a11f1181b1deb3cc39e3af681d1b85f3901ea1eb1bc9e38c891cb8b69d2b97f7,
     0x9918ddb1cc7dc18828d8a881801d58b2a1d289418185fb28e6db1ea3c1e8f781d4bf118183b2d3d4b3d2b5f95d11,
     0xb41d787283b829c3d6b1db7a2e1db1a1e0194f49f6d42b1f911d3e8d31a12ea81981cada9c9b9b18e8b8818f29b,
     0xa18b8aad58b881811f18f2994ae391f18e58a1e04a11c1c21f911a3c19f5991d01b181d19b8f38b8919a991b1c21,
     0xb18a21bb1884ea70187602811182778602c1c41b115d03a1e8861d41c361c1b6e1ae62a3d64b1ef8b8e48b8fdb1f,
     0xd16fd82cc5c448b8818de4312a195f232f97731d1ba1ef7a2ea7bc11c41c31f521c2ce28818b191f0191f9f3d,
     0xa8d18d9b9a9b88118e21e02a381831b1d2932f01c2961fb1198591f63b7d6181839f5f3111d9b1ea1ae1cc51b044,
     0xacb78284f74bbb19f1ae5c23e8b8819a288184384f112828ee1f7219d449d25881aa8e8d8d38818919d8a018818,
     0xa8b8a8a8a8a8a9a8b8c8a8a8abada8a8d8b18a9a8b8c38d903e7b11d018241bbb1bd1185929e038828b8d881f332,
     0xa31b1d61ae1a92c9371932fd1bea1bd5c1e3f6f5291e4882882982b1d41bd5d14bb6a28e8cca28b18a8d8d8818d9,
     0xf33ea7001f3943321d002b1c4878c228181f91db191fcc1ae38181aeae9f1b1d25d11b9f3f95db1f97bd1e1abd1e,
     0xf10775963c666652c15119472f301e306a6461d1b02319]

end Fxml.Text

/-! Text between quotes: the form that messages show, and the literal form of generated source. -/

namespace Fxml.Text

def isPrintable (c : Char) : Bool :=
  if c.toNat < 128 then 32 ≤ c.toNat && c.toNat < 127 else !inRanges unprintableRanges c.toNat

/-- A character of a quoted message: the quote and the backslash get a backslash, the usual
controls a letter, and whatever is not printable its number.
-/
def shownChar (quote c : Char) : List Char :=
  if c = '\\' || c = quote then ['\\', c]
  else if c = '\n' then ['\\', 'n']
  else if c = '\r' then ['\\', 'r']
  else if c = '\t' then ['\\', 't']
  else if isPrintable c then [c]
  else if c.toNat < 0x100 then '\\' :: 'x' :: hexDigits 2 c.toNat
  else if c.toNat < 0x10000 then '\\' :: 'u' :: hexDigits 4 c.toNat
  else '\\' :: 'U' :: hexDigits 8 c.toNat

/-- Text as messages show it: between single quotes, or between double quotes when it holds a
single quote and no double one.
-/
def shown (s : String) : String :=
  let quote := if s.toList.contains '\'' && !s.toList.contains '"' then '"' else '\''
  String.ofList (quote :: s.toList.flatMap (shownChar quote) ++ [quote])

/-- The characters that are replaced in a literal and what stands for them, in the order in which
they are replaced. The backslash comes first, as all others bring backslashes in.
-/
def escapes : List (Char × List Char) :=
  [('\\', ['\\', '\\']), ('"', ['\\', '"']), ('\n', ['\\', 'n']), ('\t', ['\\', 't']),
   ('\r', ['\\', 'r']), ('\x0c', ['\\', 'f']), ('\x0b', ['\\', 'v']),
   ('\x00', ['\\', 'x', '0', '0'])]

/-- Replaces a character in all of a text. -/
def replaceAll (cs : List Char) (escape : Char × List Char) : List Char :=
  cs.flatMap fun c => if c = escape.1 then escape.2 else [c]

def escaped (s : String) : String := String.ofList (escapes.foldl replaceAll s.toList)

def literal (s : String) : String := "\"" ++ escaped s ++ "\""

end Fxml.Text
