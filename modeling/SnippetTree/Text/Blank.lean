namespace SnippetTree.Text

/-- The characters that separate words. -/
def isBlank (c : Char) : Bool :=
  let n := c.toNat
  (0x09 ≤ n && n ≤ 0x0D) || (0x1C ≤ n && n ≤ 0x20) || n == 0x85 || n == 0xA0 || n == 0x1680 ||
    (0x2000 ≤ n && n ≤ 0x200A) || n == 0x2028 || n == 0x2029 || n == 0x202F || n == 0x205F ||
    n == 0x3000

/-- The text without the blanks at its two ends. -/
def trim (s : String) : String :=
  .ofList ((s.toList.dropWhile isBlank).reverse.dropWhile isBlank).reverse

/-- The maximal blank-free stretches of a text, in order. -/
def words (s : String) : List String :=
  ((s.toList.splitOnP isBlank).map String.ofList).filter (· ≠ "")

/-- The trimmed stretches between two occurrences of `separator`; blank ones are left out. -/
def pieces (separator : Char) (s : String) : List String :=
  ((s.toList.splitOnP (· == separator)).map (trim <| .ofList ·)).filter (· ≠ "")

end SnippetTree.Text
