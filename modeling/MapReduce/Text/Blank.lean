import MapReduce.Split

/-!
White space: the characters with Unicode's `White_Space` property, and the words between them.
-/
namespace MapReduce.Text

def isBlank (c : Char) : Bool :=
  let n := c.toNat
  (0x09 ≤ n && n ≤ 0x0D) || n == 0x20 || n == 0x85 || n == 0xA0 || n == 0x1680 ||
    (0x2000 ≤ n && n ≤ 0x200A) || n == 0x2028 || n == 0x2029 || n == 0x202F || n == 0x205F ||
    n == 0x3000

/-- The longest stretches free of white space. -/
def words (cs : List Char) : List (List Char) :=
  (splitWhere isBlank cs).filter (!·.isEmpty)

def trimEnd (cs : List Char) : List Char :=
  (cs.reverse.dropWhile isBlank).reverse

/-- The lines of a text; a carriage return before a newline belongs to the newline. -/
def lines (cs : List Char) : List (List Char) :=
  (Line.split '\n' cs).map (Line.withoutReturn '\r')

end MapReduce.Text
