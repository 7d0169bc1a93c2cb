import SnippetTree.Record

namespace SnippetTree

structure Element where
  name : Option String := none
  value : Option String := none
  selfClosing : Bool := false
  repetition : Option Repetition := none
  classes : List String := []
  attributes : List Attribute := []
  deriving DecidableEq, Inhabited

end SnippetTree
