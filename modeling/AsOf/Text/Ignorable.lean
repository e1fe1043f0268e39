import AsOf.Text.CodeRanges

/-!
# Ignorable characters

The characters with the property Default_Ignorable_Code_Point of Unicode 17.0:
whoever does not know them is to show nothing in their place.  Most are format
characters or marks; the fillers of the Korean script are letters.
-/

namespace AsOf
namespace Text

/-- The code points of ignorable characters. -/
def ignorableRanges : CodeRanges :=
  [(0xAD, 0xAD), (0x34F, 0x34F), (0x61C, 0x61C), (0x115F, 0x1160), (0x17B4, 0x17B5),
    (0x180B, 0x180F), (0x200B, 0x200F), (0x202A, 0x202E), (0x2060, 0x206F), (0x3164, 0x3164),
    (0xFE00, 0xFE0F), (0xFEFF, 0xFEFF), (0xFFA0, 0xFFA0), (0xFFF0, 0xFFF8), (0x1BCA0, 0x1BCA3),
    (0x1D173, 0x1D17A), (0xE0000, 0xE0FFF)]

example : ignorableRanges.ascending = true := by decide +kernel

example : ignorableRanges.count = 4174 := by decide +kernel

/-- Whether a character is shown as nothing. -/
def isIgnorable (c : Char) : Bool :=
  ignorableRanges.contains c.toNat

end Text
end AsOf
