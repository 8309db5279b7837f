/-!
# White space

The characters with the white space property, and trimming by them.
-/

namespace VectorMachine.Text
set_option autoImplicit false

/-- The 25 white space characters. -/
def isBlank (c : Char) : Bool :=
  let n := c.toNat
  (9 ≤ n && n ≤ 13) || n == 0x20 || n == 0x85 || n == 0xa0 || n == 0x1680 ||
    (0x2000 ≤ n && n ≤ 0x200a) || n == 0x2028 || n == 0x2029 || n == 0x202f ||
    n == 0x205f || n == 0x3000

def trimBlankList (cs : List Char) : List Char :=
  ((cs.dropWhile isBlank).reverse.dropWhile isBlank).reverse

/-- Drops white space at both ends. -/
def trimBlank (s : String) : String := String.ofList (trimBlankList s.toList)

end VectorMachine.Text
