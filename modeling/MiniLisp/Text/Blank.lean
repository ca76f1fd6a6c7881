/-!
White space.  The class is the White_Space property of the Unicode standard.
-/

namespace MiniLisp

/-- White space among the first 128 characters: tab, line feed, vertical tab,
form feed, carriage return and space. -/
def isAsciiBlank (c : Char) : Bool :=
  c == ' ' || (9 ≤ c.toNat && c.toNat ≤ 13)

def isBlank (c : Char) : Bool :=
  isAsciiBlank c || c.toNat == 0x85 || c.toNat == 0xA0 || c.toNat == 0x1680 ||
    (0x2000 ≤ c.toNat && c.toNat ≤ 0x200A) || c.toNat == 0x2028 ||
    c.toNat == 0x2029 || c.toNat == 0x202F || c.toNat == 0x205F ||
    c.toNat == 0x3000

theorem isBlank_of_isAsciiBlank {c : Char} (h : isAsciiBlank c = true) :
    isBlank c = true := by
  simp [isBlank, h]

end MiniLisp
