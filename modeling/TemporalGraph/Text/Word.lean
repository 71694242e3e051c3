import TemporalGraph.Text.Category
/-! The characters that words are made of, and those that can be shown as they are. -/

namespace TemporalGraph.Text

def isEnclosedLetter (n : Nat) : Bool :=
  (0x24B6 ≤ n && n ≤ 0x24E9) || (0x1F130 ≤ n && n ≤ 0x1F149) || (0x1F150 ≤ n && n ≤ 0x1F169)
    || (0x1F170 ≤ n && n ≤ 0x1F189)

/-- Letters, marks, digits, letter-like numbers, connectors and the two joiners. -/
def isWordChar (c : Char) : Bool :=
  if c.toNat < 128 then c.isAlphanum || c = '_'
  else
    ["Lu", "Ll", "Lt", "Lm", "Lo", "Mn", "Mc", "Me", "Nd", "Nl", "Pc"].contains (category c)
      || c.toNat = 0x200C || c.toNat = 0x200D || isEnclosedLetter c.toNat

def isVisible (c : Char) : Bool :=
  if c.toNat < 127 then 32 ≤ c.toNat
  else !(["Cc", "Cf", "Cn", "Co", "Cs", "Zl", "Zp", "Zs"].contains (category c))

def otherExtenders : List (Nat × Nat) :=
  [(0x9BE, 0x9BE), (0x9D7, 0x9D7), (0xB3E, 0xB3E), (0xB57, 0xB57), (0xBBE, 0xBBE), (0xBD7, 0xBD7),
    (0xCC2, 0xCC2), (0xCD5, 0xCD6), (0xD3E, 0xD3E), (0xD57, 0xD57), (0xDCF, 0xDCF), (0xDDF, 0xDDF),
    (0x1B35, 0x1B35), (0x200C, 0x200C), (0x302E, 0x302F), (0xFF9E, 0xFF9F), (0x1133E, 0x1133E),
    (0x11357, 0x11357), (0x114B0, 0x114B0), (0x114BD, 0x114BD), (0x115AF, 0x115AF),
    (0x11930, 0x11930), (0x1D165, 0x1D165), (0x1D16E, 0x1D172), (0xE0020, 0xE007F)]

def isExtender (c : Char) : Bool :=
  128 ≤ c.toNat && (["Mn", "Me"].contains (category c)
    || otherExtenders.any fun r => r.1 ≤ c.toNat && c.toNat ≤ r.2)

end TemporalGraph.Text
