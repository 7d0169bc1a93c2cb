import SnippetTree.Record.Reading
import SnippetTree.Text.Quoted

namespace SnippetTree

/-- The short text of a node, which shows its name. -/
def nodeText (name : Option String) : String :=
  "<Node " ++ Text.quoted? name ++ ">"

/-- Why an operation on a tree was refused; nodes are given by their names at that moment. -/
inductive TreeFault where
  /-- The child is the new parent or one of its ancestors. -/
  | cycle (child parent : Option String)
  /-- The reference to insert before is no child of the parent. -/
  | notAChild (child reference parent : Option String)
  /-- A node without parent cannot be replaced. -/
  | noParent (node : Option String)
  | other (reason : String)
  deriving DecidableEq

def TreeFault.reason : TreeFault → String
  | .cycle child parent =>
    "adding " ++ nodeText child ++ " under " ++ nodeText parent ++ " would create a cycle"
  | .notAChild child reference parent =>
    "cannot insert " ++ nodeText child ++ " before " ++ nodeText reference ++
      ", which is not a child of " ++ nodeText parent
  | .noParent node => "cannot replace detached node " ++ nodeText node ++ " with a snippet"
  | .other reason => reason

/-- Why an operation failed. -/
inductive Fault where
  /-- The template of a snippet cannot be parsed; the node is the one that matched the snippet. -/
  | unparsable (template reason : String) (node : Option String)
  | tree (fault : TreeFault)
  | unknownSnippet (name : String)
  /-- A registry key without a single name. -/
  | blankKey (key : String)
  /-- A snippet is made from a template text or a handler only. -/
  | badSource (name : Option String) (kind : String)
  /-- A lookup answered with something that is no snippet. -/
  | badAnswer (kind : String)
  /-- A lookup answered with something that cannot be compared with snippets. -/
  | incomparable (kind : String)
  /-- The node under replacement was taken out of its tree before the replacement was complete. -/
  | lostParent
  | unreadable (problems : Problems)
  /-- A failure reported by a lookup, a template reader or a handler. -/
  | raised (kind message : String)
  /-- A failure that answers another one. -/
  | because (fault cause : Fault)
  deriving DecidableEq

def Fault.message : Fault → String
  | .unparsable template reason node =>
    let target := match node with
      | none | some "" => ""
      | some name => " for node '" ++ name ++ "'"
    "Unable to parse \"" ++ template ++ "\" snippet" ++ target ++ ": " ++ reason
  | .tree fault => "Invalid tree operation: " ++ fault.reason
  | .unknownSnippet name => "Snippet '" ++ name ++ "' is not registered"
  | .blankKey key => "Snippet key " ++ Text.quoted key ++ " contains no snippet name"
  | .badSource name kind =>
    "Snippet '" ++ name.getD "None" ++ "' must be a template string or a callable, got " ++ kind
  | .badAnswer kind => "Unsupported snippet type: " ++ kind
  | .incomparable kind => "unhashable type: '" ++ kind ++ "'"
  | .lostParent => "the node under replacement has no parent"
  | .unreadable problems => "unreadable fields: " ++ ", ".intercalate (problems.map Prod.fst)
  | .raised _ message => message
  | .because fault _ => fault.message

end SnippetTree
