/-!
# Blanks

The characters that separate words are those with the Unicode property `White_Space`. Case is
folded for the ASCII letters only.
-/
namespace StackCompiler.Text

/-- The Unicode property `White_Space`. -/
def isBlank (c : Char) : Bool :=
  let n := c.toNat
  (0x9 ≤ n && n ≤ 0xD) || n == 0x20 || n == 0x85 || n == 0xA0 || n == 0x1680 ||
    (0x2000 ≤ n && n ≤ 0x200A) || n == 0x2028 || n == 0x2029 || n == 0x202F || n == 0x205F ||
    n == 0x3000

def trim (cs : List Char) : List Char :=
  ((cs.dropWhile isBlank).reverse.dropWhile isBlank).reverse

/-- ASCII capitals become small letters. -/
def lower (cs : List Char) : List Char :=
  cs.map Char.toLower

/-- The first word and what stands after the blank that ends it, if there is one. -/
def splitAtBlank (cs : List Char) : List Char × Option (List Char) :=
  match cs.dropWhile (!isBlank ·) with
  | [] => (cs, none)
  | _ :: rest => (cs.takeWhile (!isBlank ·), some rest)

end StackCompiler.Text
