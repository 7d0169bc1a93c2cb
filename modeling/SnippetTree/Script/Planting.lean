import SnippetTree.Script

namespace SnippetTree.Script

variable {σ ρ : Type}

def newAttribute (record : Attribute) : Script σ ρ AttributeId := do
  let a ← read Store.freshAttribute
  perform (.addAttribute record)
  return a

def newRepetition (record : Repetition) : Script σ ρ RepetitionId := do
  let r ← read Store.freshRepetition
  perform (.addRepetition record)
  return r

def newGuard : Script σ ρ GuardId := do
  let g ← read Store.freshGuard
  perform .addGuard
  return g

/-- A new node that carries the given records themselves; an attribute that lists class names adds
these before the given ones. -/
def newNode (name value : Option String) (selfClosing : Bool) (repetition : Option RepetitionId)
    (attributes : List AttributeId) (classes : List String) : Script σ ρ NodeId := do
  let n ← read Store.freshNode
  perform (.addNode name value selfClosing repetition)
  attributes.forM fun a => perform (.setAttribute n a)
  classes.forM fun c => perform (.addClass n c)
  return n

/-- A new node that shows an element, with records of its own. -/
def newElement (e : Element) : Script σ ρ NodeId := do
  let attributes ← e.attributes.mapM newAttribute
  let repetition ← e.repetition.mapM newRepetition
  newNode e.name e.value e.selfClosing repetition attributes e.classes

mutual

/-- A new tree of new nodes that shows an outline of elements. -/
def plant : Outline Element → Script σ ρ NodeId
  | .node e below => do
    let n ← newElement e
    plantUnder n below
    return n

def plantUnder (n : NodeId) : List (Outline Element) → Script σ ρ Unit
  | [] => pure ()
  | t :: ts => do
    let c ← plant t
    perform (.append n c)
    plantUnder n ts

end

/-- A detached copy of a node, with copies of its records and, if `deep`, of all nodes below it. -/
def copy (n : NodeId) (deep : Bool) : Script σ ρ NodeId := do
  plant (← read fun s => if deep then s.document n else .node (s.element n) [])

end SnippetTree.Script
