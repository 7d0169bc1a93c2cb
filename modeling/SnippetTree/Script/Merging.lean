import SnippetTree.Script.Planting

namespace SnippetTree.Script

variable {σ ρ : Type}

/-- Adds the class names of `source` that `target` lacks, in their order. -/
def addClassesOf (source target : NodeId) : Script σ ρ Unit := do
  (← read fun s => (s.data source).classes).forM fun c => perform (.addClass target c)

/-- Makes the given attributes the only ones of a node. -/
def replaceAttributes (n : NodeId) (attributes : List AttributeId) : Script σ ρ Unit := do
  perform (.clearAttributes n)
  attributes.forM fun a => perform (.setAttribute n a)

/-- Gives the attributes of `source` on top of those of `target`. -/
def layerAttributes (source target : NodeId) : Script σ ρ Unit := do
  let records ← read fun s =>
    Attribute.layer (s.element target).attributes (s.element source).attributes
  replaceAttributes target (← records.mapM newAttribute)

/-- Merges text, flag, repetition, class names and attributes of `source` into `target`, with copies
of the records, so that the two nodes never share one. -/
def merge (source target : NodeId) : Script σ ρ Unit := do
  let e ← read (·.element source)
  if e.selfClosing then
    perform (.setSelfClosing target true)
  if e.value.isSome then
    perform (.setValue target e.value)
  if let some record := e.repetition then
    perform (.setRepetition target (some (← newRepetition record)))
  addClassesOf source target
  layerAttributes source target

end SnippetTree.Script
