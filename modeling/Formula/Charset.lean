/-! Character classes of formula text, as inclusive ranges of code points. Names may use
letters of any script and operators may be mathematical symbols. The classes overlap: a
combining mark may continue a name or stand in an operator, and a variation selector may also
start either. -/
namespace Formula.Charset

abbrev Ranges := List (Nat × Nat)

def Ranges.contains (ranges : Ranges) (c : Char) : Bool :=
  ranges.any fun range => decide (range.1 ≤ c.toNat) && decide (c.toNat ≤ range.2)

/-- These may continue a name but not start one. -/
def combiningMarks : Ranges :=
  [(0x300, 0x36F), (0x1DC0, 0x1DFF), (0x20D0, 0x20FF), (0xFE20, 0xFE2F)]

def nameHeads : Ranges :=
  [(0x61, 0x7A), (0x41, 0x5A), (0x5F, 0x5F), (0x23, 0x24), (0x40, 0x40),
   (0xA8, 0xA8), (0xAA, 0xAA), (0xAD, 0xAD), (0xAF, 0xAF), (0xB2, 0xB5), (0xB7, 0xBA),
   (0xBC, 0xBE), (0xC0, 0xD6), (0xD8, 0xF6), (0xF8, 0xFF), (0x100, 0x2FF), (0x370, 0x167F),
   (0x1681, 0x180D), (0x180F, 0x1DBF), (0x1E00, 0x1FFF), (0x200B, 0x200D), (0x202A, 0x202E),
   (0x203F, 0x2040), (0x2054, 0x2054), (0x2060, 0x206F), (0x2070, 0x20CF), (0x2100, 0x218F),
   (0x2460, 0x24FF), (0x2776, 0x2793), (0x2C00, 0x2DFF), (0x2E80, 0x2FFF), (0x3004, 0x3007),
   (0x3021, 0x302F), (0x3031, 0x303F), (0x3040, 0xD7FF), (0xF900, 0xFD3D), (0xFD40, 0xFDCF),
   (0xFDF0, 0xFE1F), (0xFE30, 0xFE44), (0xFE47, 0xFFFD), (0x10000, 0x1FFFD), (0x20000, 0x2FFFD),
   (0x30000, 0x3FFFD), (0x40000, 0x4FFFD), (0x50000, 0x5FFFD), (0x60000, 0x6FFFD),
   (0x70000, 0x7FFFD), (0x80000, 0x8FFFD), (0x90000, 0x9FFFD), (0xA0000, 0xAFFFD),
   (0xB0000, 0xBFFFD), (0xC0000, 0xCFFFD), (0xD0000, 0xDFFFD), (0xE0000, 0xEFFFD)]

/-- The ASCII operator characters, the symbol blocks and the combining marks. -/
def operatorRanges : Ranges :=
  [(0x2F, 0x2F), (0x3D, 0x3D), (0x2D, 0x2D), (0x2B, 0x2B), (0x21, 0x21), (0x2A, 0x2A),
   (0x25, 0x25), (0x3C, 0x3C), (0x3E, 0x3E), (0x26, 0x26), (0x7C, 0x7C), (0x5E, 0x5E),
   (0x7E, 0x7E), (0x3F, 0x3F), (0x3A, 0x3A), (0xA1, 0xA7), (0xA9, 0xA9), (0xAB, 0xAC),
   (0xAE, 0xAE), (0xB0, 0xB1), (0xB6, 0xB6), (0xBB, 0xBB), (0xBF, 0xBF), (0xD7, 0xD7),
   (0xF7, 0xF7), (0x2016, 0x2017), (0x2020, 0x2027), (0x2030, 0x203E), (0x2041, 0x2053),
   (0x2055, 0x205E), (0x2190, 0x23FF), (0x2500, 0x2775), (0x2794, 0x2BFF), (0x2E00, 0x2E7F),
   (0x3001, 0x3003), (0x3008, 0x3020), (0x3030, 0x3030), (0xFE00, 0xFE0F), (0xE0100, 0xE01EF)]
  ++ combiningMarks

/-- Characters that may separate tokens. -/
def isBlank (c : Char) : Bool := c == ' ' || c == '\t' || c == '\n' || c == '\r'

def isNameHead (c : Char) : Bool := nameHeads.contains c

def isNameTail (c : Char) : Bool := isNameHead c || c.isDigit || combiningMarks.contains c

/-- A dot is not an operator character: it may only start an operator, or follow a first dot. -/
def isOperator (c : Char) : Bool := operatorRanges.contains c

def isHexDigit (c : Char) : Bool :=
  c.isDigit || (decide ('a' ≤ c) && decide (c ≤ 'f')) || (decide ('A' ≤ c) && decide (c ≤ 'F'))

/-- The Unicode property `White_Space`. -/
def whiteSpace : Ranges :=
  [(0x9, 0xD), (0x20, 0x20), (0x85, 0x85), (0xA0, 0xA0), (0x1680, 0x1680), (0x2000, 0x200A),
   (0x2028, 0x2029), (0x202F, 0x202F), (0x205F, 0x205F), (0x3000, 0x3000)]

def isWhiteSpace (c : Char) : Bool := whiteSpace.contains c

/-- Drops white space at both ends. -/
def trim (text : List Char) : List Char :=
  ((text.dropWhile isWhiteSpace).reverse.dropWhile isWhiteSpace).reverse

end Formula.Charset
