import SnippetTree.Text.Quoted

namespace SnippetTree

inductive Notice where
  /-- A name of a registry is bound again. -/
  | replacing (name : String)
  /-- The snippet of a node is under expansion already, so the node stays. -/
  | keeping (node : String)
  /-- A node goes to a handler. -/
  | passing (node : String)
  /-- A node is replaced by the tree of a template. -/
  | expanding (node template : String)
  deriving DecidableEq

def Notice.message : Notice → String
  | .replacing name => "Replacing snippet " ++ Text.quoted name
  | .keeping node =>
    "Snippet for " ++ Text.quoted node ++ " is already being expanded, keeping node"
  | .passing node => "Passing node " ++ Text.quoted node ++ " to snippet handler"
  | .expanding node template =>
    "Expanding node " ++ Text.quoted node ++ " with snippet " ++ Text.quoted template

end SnippetTree
