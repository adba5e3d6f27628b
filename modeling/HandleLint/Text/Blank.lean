/-!
# Blank characters

The characters with the Unicode property White_Space, and text without those at its ends.
-/

namespace HandleLint.Text

/-- The characters with the property White_Space. -/
def isBlank (c : Char) : Bool :=
  let n := c.toNat
  (0x09 ≤ n && n ≤ 0x0D) || n == 0x20 || n == 0x85 || n == 0xA0 || n == 0x1680 ||
    (0x2000 ≤ n && n ≤ 0x200A) || n == 0x2028 || n == 0x2029 || n == 0x202F || n == 0x205F ||
    n == 0x3000

def trimLeft (cs : List Char) : List Char :=
  cs.dropWhile isBlank

def trimRight (cs : List Char) : List Char :=
  (cs.reverse.dropWhile isBlank).reverse

def trim (cs : List Char) : List Char :=
  trimRight (trimLeft cs)

/-- Whether nothing but blanks stands in a text. -/
def isBlankText (s : String) : Bool :=
  s.toList.all isBlank

theorem length_trimLeft_le (cs : List Char) : (trimLeft cs).length ≤ cs.length :=
  (List.dropWhile_sublist isBlank).length_le

theorem length_trimRight_le (cs : List Char) : (trimRight cs).length ≤ cs.length := by
  simpa [trimRight] using (List.dropWhile_sublist (l := cs.reverse) isBlank).length_le

theorem length_trim_le (cs : List Char) : (trim cs).length ≤ cs.length :=
  Nat.le_trans (length_trimRight_le _) (length_trimLeft_le _)

end HandleLint.Text
