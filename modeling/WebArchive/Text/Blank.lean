import WebArchive.Text.Basic

/-!
White space is the Unicode property White_Space: it includes the no-break space, the
ideographic space and the line separators, and leaves out the zero-width characters.
-/
namespace WebArchive.Text

/-- The first and last code points of each run of White_Space characters. -/
def blankRanges : List (Nat × Nat) :=
  [(0x09, 0x0D), (0x20, 0x20), (0x85, 0x85), (0xA0, 0xA0), (0x1680, 0x1680), (0x2000, 0x200A),
   (0x2028, 0x2029), (0x202F, 0x202F), (0x205F, 0x205F), (0x3000, 0x3000)]

def isBlank (c : Char) : Bool :=
  blankRanges.any fun (first, last) => first ≤ c.toNat && c.toNat ≤ last

def trimStart (t : Text) : Text := t.dropWhile isBlank

def trimEnd (t : Text) : Text := (t.reverse.dropWhile isBlank).reverse

def trim (t : Text) : Text := trimEnd (trimStart t)

end WebArchive.Text
