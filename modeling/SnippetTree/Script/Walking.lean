import SnippetTree.Script

namespace SnippetTree.Script

variable {σ ρ : Type}

/-- Visits `start` and the siblings after it. The next sibling is taken before a node is visited, so
that the visit may replace or detach its node. -/
def visitFrom (visit : NodeId → Script σ ρ Unit) : Nat → Option NodeId → Script σ ρ Unit
  | _, none => pure ()
  | 0, some _ => exhausted
  | steps + 1, some n => do
    let following ← read fun s => (s.links n).nextSibling
    visit n
    visitFrom visit steps following

def visitChildren (steps : Nat) (n : NodeId) (visit : NodeId → Script σ ρ Unit) :
    Script σ ρ Unit := do
  visitFrom visit steps (← read fun s => (s.links n).firstChild)

/-- Visits the nodes below a node, each before those below it. The walk has a bound, since visits may
add nodes without end. -/
def walk : Nat → NodeId → (NodeId → Script σ ρ Unit) → Script σ ρ Unit
  | 0, _, _ => exhausted
  | steps + 1, n, visit => visitChildren steps n fun c => do
    visit c
    walk steps c visit

/-- Hands the first child of a node to `move`, until the node has no children; at most `bound`
children are handed over. -/
def drainWithin (n : NodeId) (move : NodeId → Script σ ρ Unit) : Nat → Script σ ρ Unit
  | 0 => exhausted
  | bound + 1 => do
    if let some c ← read fun s => (s.links n).firstChild then
      move c
      drainWithin n move bound

/-- Hands the children of a node to `move`, which takes each of them away. There are never more
children than nodes. -/
def drain (n : NodeId) (move : NodeId → Script σ ρ Unit) : Script σ ρ Unit := do
  drainWithin n move (← read fun s => s.nodes.size + 1)

end SnippetTree.Script
