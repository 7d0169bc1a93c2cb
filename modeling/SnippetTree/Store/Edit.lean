import SnippetTree.Store.View
import SnippetTree.Text.Blank

namespace SnippetTree

namespace Store

/-- Makes `next` follow `previous` among the children of `parent`; without a neighbour on one side
the other one becomes the first or the last child. -/
def join (s : Store) (parent : NodeId) (previous next : Option NodeId) : Store :=
  let s := match previous with
    | some p => s.modifyLinks p ({ · with nextSibling := next })
    | none => s.modifyLinks parent ({ · with firstChild := next })
  match next with
  | some n => s.modifyLinks n ({ · with previousSibling := previous })
  | none => s.modifyLinks parent ({ · with lastChild := previous })

/-- Takes a node out of its parent's children; a node without parent stays as it is. -/
def detach (s : Store) (child : NodeId) : Store :=
  let l := s.links child
  match l.parent with
  | none => s
  | some parent =>
    (s.join parent l.previousSibling l.nextSibling).modifyLinks child
      ({ · with parent := none, nextSibling := none, previousSibling := none })

/-- Puts a detached node between two neighbours among the children of `parent`. -/
def place (s : Store) (parent child : NodeId) (previous next : Option NodeId) : Store :=
  if parent ∈ s ∧ child ∈ s then
    let s := s.modifyLinks child ({ · with parent := some parent })
    (s.join parent previous (some child)).join parent (some child) next
  else s

/-- Makes a node the last child of `parent`. -/
def append (s : Store) (parent child : NodeId) : Store :=
  let s := s.detach child
  s.place parent child (s.links parent).lastChild none

/-- Puts a node before a child of `parent`; put before itself it stays where it is. -/
def insertBefore (s : Store) (parent child reference : NodeId) : Store :=
  if child = reference then s
  else
    let s := s.detach child
    s.place parent child (s.links reference).previousSibling (some reference)

/-- A node cannot be put under itself or under a node below it. -/
def cycle? (s : Store) (parent child : NodeId) : Option TreeFault :=
  if child ∈ s.lineage parent then some (.cycle (s.data child).name (s.data parent).name) else none

/-- A node can only be put before a child of the parent that it is meant for. -/
def misplaced? (s : Store) (parent child reference : NodeId) : Option TreeFault :=
  if (s.links reference).parent ≠ some parent then
    some (.notAChild (s.data child).name (s.data reference).name (s.data parent).name)
  else if child = reference then none
  else s.cycle? parent child

/-- Adds a class name that is not empty and not there yet. -/
def addClass (s : Store) (n : NodeId) (className : String) : Store :=
  s.modifyData n fun d =>
    if className = "" ∨ className ∈ d.classes then d
    else { d with classes := d.classes ++ [className] }

/-- Stores an attribute under its name, in place of an earlier one of that name; an attribute that
lists class names adds these instead. -/
def setAttribute (s : Store) (n : NodeId) (a : AttributeId) : Store :=
  let record := s.attributeAt a
  if !s.hasAttribute a then s
  else if record.name = Attribute.className then
    (Text.words (record.value.getD "")).foldl (·.addClass n) s
  else s.modifyData n fun d => { d with attributes := d.attributes.insert record.name a }

/-- A repetition that the store holds. -/
def held (s : Store) (repetition : Option RepetitionId) : Option RepetitionId :=
  repetition.filter s.hasRepetition

/-- Removes the attribute stored under a name, or all class names. -/
def removeAttribute (s : Store) (n : NodeId) (name : String) : Store :=
  s.modifyData n fun d =>
    if name = Attribute.className then { d with classes := [] }
    else { d with attributes := d.attributes.erase name }

end Store

/-- A primitive change. None makes a store refer to a node or a record that it does not hold. -/
inductive Edit where
  | addNode (name value : Option String) (selfClosing : Bool) (repetition : Option RepetitionId)
  | addAttribute (record : Attribute)
  | addRepetition (record : Repetition)
  | writeAttribute (a : AttributeId) (record : Attribute)
  | writeRepetition (r : RepetitionId) (record : Repetition)
  | setName (n : NodeId) (name : Option String)
  | setValue (n : NodeId) (value : Option String)
  | setSelfClosing (n : NodeId) (selfClosing : Bool)
  | setRepetition (n : NodeId) (repetition : Option RepetitionId)
  | setClasses (n : NodeId) (classes : List String)
  | addClass (n : NodeId) (className : String)
  | setAttribute (n : NodeId) (a : AttributeId)
  | removeAttribute (n : NodeId) (name : String)
  | clearAttributes (n : NodeId)
  | append (parent child : NodeId)
  | insertBefore (parent child : NodeId) (reference : Option NodeId)
  | detach (child : NodeId)
  | addGuard
  | enter (g : GuardId) (s : Snippet)
  | leave (g : GuardId) (s : Snippet)
  | report (notice : Notice)
  deriving DecidableEq

/-- Why an edit is refused, if it is. -/
def Edit.refusal? (s : Store) : Edit → Option Fault
  | append parent child | insertBefore parent child none => (s.cycle? parent child).map .tree
  | insertBefore parent child (some reference) =>
    (s.misplaced? parent child reference).map .tree
  | _ => none

/-- The store after an edit that is not refused. -/
def Edit.apply (s : Store) : Edit → Store
  | addNode name value selfClosing repetition =>
    let data := { name, value, selfClosing, repetition := s.held repetition }
    { s with nodes := s.nodes.push { data } }
  | addAttribute record => { s with attributes := s.attributes.push record }
  | addRepetition record => { s with repetitions := s.repetitions.push record }
  | writeAttribute a record => { s with attributes := s.attributes.setIfInBounds a.index record }
  | writeRepetition r record => { s with repetitions := s.repetitions.setIfInBounds r.index record }
  | setName n name => s.modifyData n ({ · with name })
  | setValue n value => s.modifyData n ({ · with value })
  | setSelfClosing n selfClosing => s.modifyData n ({ · with selfClosing })
  | setRepetition n repetition => s.modifyData n ({ · with repetition := s.held repetition })
  | setClasses n classes => s.modifyData n ({ · with classes })
  | addClass n className => s.addClass n className
  | setAttribute n a => s.setAttribute n a
  | removeAttribute n name => s.removeAttribute n name
  | clearAttributes n => s.modifyData n ({ · with attributes := ∅ })
  | append parent child | insertBefore parent child none => s.append parent child
  | insertBefore parent child (some reference) => s.insertBefore parent child reference
  | detach child => s.detach child
  | addGuard => { s with guards := s.guards.push {} }
  | enter g snippet => { s with guards := s.guards.modify g.index (·.insert snippet) }
  | leave g snippet => { s with guards := s.guards.modify g.index (·.erase snippet) }
  | report notice => { s with notices := s.notices.push notice }

end SnippetTree
