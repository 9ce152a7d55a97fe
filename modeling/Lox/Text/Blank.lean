/-!
Blank characters, and the trimming and splitting of text at them.

The class is that of the Unicode property `White_Space` together with the four information
separators.
-/

namespace Lox.Text

/-- Blank characters: the controls from tab to carriage return, the information separators, the
spaces, the line and paragraph separators. -/
def isBlank (c : Char) : Bool :=
  let n := c.toNat
  (0x09 ≤ n && n ≤ 0x0D) || (0x1C ≤ n && n ≤ 0x20) || n == 0x85 || n == 0xA0 || n == 0x1680
    || (0x2000 ≤ n && n ≤ 0x200A) || n == 0x2028 || n == 0x2029 || n == 0x202F || n == 0x205F
    || n == 0x3000

def trimLeft (cs : List Char) : List Char := cs.dropWhile isBlank

def trim (cs : List Char) : List Char :=
  (trimLeft (trimLeft cs).reverse).reverse

def firstWord (cs : List Char) : List Char × List Char :=
  (cs.takeWhile (!isBlank ·), trimLeft (cs.dropWhile (!isBlank ·)))

end Lox.Text
