import SnippetTree.Store

namespace SnippetTree.Store

/-- The nodes met from `start` along `next`, at most `bound` of them. As many steps as there are nodes
are enough where the links form trees. -/
def chain (next : NodeId → Option NodeId) : Nat → Option NodeId → List NodeId
  | 0, _ => []
  | _ + 1, none => []
  | bound + 1, some n => n :: chain next bound (next n)

def children (s : Store) (n : NodeId) : List NodeId :=
  chain (fun m => (s.links m).nextSibling) s.nodes.size (s.links n).firstChild

/-- The node and its ancestors, from the node up. -/
def lineage (s : Store) (n : NodeId) : List NodeId :=
  chain (fun m => (s.links m).parent) (s.nodes.size + 1) (some n)

/-- The node reached from `n` by going to the last child, for at most `bound` steps. -/
def lastLeafWithin (s : Store) : Nat → NodeId → NodeId
  | 0, n => n
  | bound + 1, n =>
    match (s.links n).lastChild with
    | some c => s.lastLeafWithin bound c
    | none => n

/-- The last leaf below `n`, or `n` itself where it has no children. -/
def lastLeaf (s : Store) (n : NodeId) : NodeId := s.lastLeafWithin s.nodes.size n

/-- The nodes below `n` down to depth `bound`. -/
def outlineTo (s : Store) : Nat → NodeId → Outline NodeId
  | 0, n => .node n []
  | bound + 1, n => .node n ((s.children n).map (s.outlineTo bound))

def outline (s : Store) (n : NodeId) : Outline NodeId := s.outlineTo s.nodes.size n

/-- The data of a node, with its records written out. -/
def element (s : Store) (n : NodeId) : Element :=
  let d := s.data n
  { name := d.name
    value := d.value
    selfClosing := d.selfClosing
    repetition := d.repetition.map s.repetitionAt
    classes := d.classes
    attributes := d.attributes.values.map s.attributeAt }

def document (s : Store) (n : NodeId) : Outline Element := (s.outline n).map s.element

end SnippetTree.Store
