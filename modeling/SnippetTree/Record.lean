import SnippetTree.Keyed

namespace SnippetTree

/-- An attribute of an element. An implied one is a placeholder that is shown only once it has been
given explicitly. -/
structure Attribute where
  name : String
  value : Option String := none
  implied : Bool := false
  deriving DecidableEq, Inhabited

/-- The place of a node in a repeated group. -/
structure Repetition where
  count : Option Int := none
  index : Option Int := none
  value : Option Int := none
  deriving DecidableEq, Inhabited

namespace Attribute

/-- The name under which an attribute lists class names and is never stored. -/
def className : String := "class"

/-- The attributes by name; of two with one name the later is kept, in the earlier's place. -/
def byName (attributes : List Attribute) : Keyed Attribute :=
  attributes.foldl (fun named a => named.insert a.name a) ∅

/-- One attribute given over those already there: its value wins and makes the named one explicit;
a new name comes last. -/
def give (named : Keyed Attribute) (a : Attribute) : Keyed Attribute :=
  match named.find? a.name with
  | some old => named.insert a.name { old with value := a.value, implied := false }
  | none => named.insert a.name a

/-- The attributes of `base`, in their order, with those of `given` on top. -/
def layer (base given : List Attribute) : List Attribute :=
  (given.foldl give (byName base)).values

end Attribute

end SnippetTree
