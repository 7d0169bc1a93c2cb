import SnippetTree.Fault

namespace SnippetTree

/-- Identifies a handler; what it does is part of a resolution's surroundings. -/
structure HandlerId where
  index : Nat
  deriving DecidableEq, Inhabited

/-- What a snippet does with a node: put a parsed template in its place, or hand it over. -/
inductive Snippet.Body where
  | template (text : String)
  | handler (id : HandlerId)
  deriving DecidableEq

/-- A snippet, told from all others by its serial number: two with the same template are different,
and all names of one snippet share it. -/
structure Snippet where
  serial : Nat
  body : Snippet.Body
  name : Option String := none
  deriving DecidableEq

/-- What may be offered as a snippet. -/
inductive Source where
  | template (text : String)
  | handler (id : HandlerId)
  | ready (snippet : Snippet)
  | other (kind : String)
  deriving DecidableEq

/-- The snippet made from a source; a ready one is taken as it is, and only a new one uses the serial
number and the name. -/
def Source.toSnippet (source : Source) (serial : Nat) (name : Option String) :
    Except Fault Snippet :=
  match source with
  | .template text => .ok { serial, body := .template text, name }
  | .handler id => .ok { serial, body := .handler id, name }
  | .ready snippet => .ok snippet
  | .other kind => .error (.badSource name kind)

end SnippetTree
