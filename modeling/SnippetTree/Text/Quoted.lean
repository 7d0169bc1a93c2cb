import SnippetTree.Text.Printable

namespace SnippetTree.Text

/-- The number `n` in hexadecimal, in at least `width` digits. -/
def hex (width n : Nat) : List Char :=
  let digits := Nat.toDigits 16 n
  List.replicate (width - digits.length) '0' ++ digits

/-- The mark that encloses a text: a quotation mark if the text holds an apostrophe and no
quotation mark. -/
def enclosing (cs : List Char) : Char :=
  if cs.contains '\x27' && !cs.contains '\x22' then '\x22' else '\x27'

/-- The written form of one character of a text enclosed by `mark`. -/
def escape (mark c : Char) : List Char :=
  if c == mark || c == '\x5c' then ['\x5c', c]
  else if c == '\n' then ['\x5c', 'n']
  else if c == '\r' then ['\x5c', 'r']
  else if c == '\t' then ['\x5c', 't']
  else if isPrintable c then [c]
  else if c.toNat < 0x100 then '\x5c' :: 'x' :: hex 2 c.toNat
  else if c.toNat < 0x10000 then '\x5c' :: 'u' :: hex 4 c.toNat
  else '\x5c' :: 'U' :: hex 8 c.toNat

/-- The text in its enclosing marks, with every character in its written form. -/
def quoted (s : String) : String :=
  let mark := enclosing s.toList
  .ofList (mark :: s.toList.flatMap (escape mark) ++ [mark])

/-- A text that may be missing is shown as `None` when it is. -/
def quoted? : Option String → String
  | none => "None"
  | some s => quoted s

end SnippetTree.Text
