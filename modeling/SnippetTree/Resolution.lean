import SnippetTree.Registry
import SnippetTree.Script.Merging
import SnippetTree.Script.Walking

namespace SnippetTree

/-- What a lookup answers for a name. -/
inductive Answer where
  | snippet (s : Snippet)
  /-- Something else, of some kind; only what is comparable can be looked for among snippets. -/
  | other (kind : String) (comparable : Bool)
  deriving DecidableEq

/-- What a resolution is given: a lookup of snippets, a reader of templates, and what the handlers
do. A handler may ask to continue the resolution at a node. -/
structure Surroundings (σ : Type) where
  lookup : String → Script σ Empty (Option Answer)
  parse : String → Script σ Empty NodeId
  handle : HandlerId → NodeId → Script σ NodeId Unit

/-- Bounds of a resolution: how deep expansions may be nested, and how far a walk may go. -/
structure Limits where
  depth : Nat
  steps : Nat

namespace Resolution

variable {σ ρ : Type}

/-- Runs a script with a snippet under expansion; the guard is left however the script ends. -/
def within (g : GuardId) (s : Snippet) (body : Script σ ρ Unit) : Script σ ρ Unit := do
  .perform (.enter g s)
  body.ensuring (.leave g s)

/-- Whether an answer is a snippet under expansion. -/
def isActive (g : GuardId) : Answer → Script σ ρ Bool
  | .snippet s => .read fun store => (store.guardAt g).contains s
  | .other _ true => pure false
  | .other kind false => .fail (.incomparable kind)

/-- Parses a template for a node; any failure is reported as one of the template. -/
def parseFor (c : Surroundings σ) (template node : String) : Script σ Empty NodeId := do
  match ← (c.parse template).attempt with
  | .ok tree => return tree
  | .error e => .fail (.because (.unparsable template e.message (some node)) e)

/-- Puts the top nodes of `tree` in the place of `n`, each with what `n` carries merged into it. -/
def splice (tree n : NodeId) : Script σ ρ Unit := do
  -- a handler may have taken `n` out of its place since its replacement began
  let parent ← .read fun s => (s.links n).parent
  Script.drain tree fun top =>
    match parent with
    | none => .fail .lostParent
    | some p => do
      Script.merge n top
      .perform (.insertBefore p top (some n))
  .perform (.detach n)

/-- Replaces `n` by the tree of a template. The nodes of that tree are resolved with the snippet
under expansion, those below `n` without. -/
def replaceBy (c : Surroundings σ) (g : GuardId) (steps : Nat)
    (resolve : NodeId → Script σ Empty Unit) (n : NodeId) (name : String) (s : Snippet)
    (template : String) : Script σ Empty Unit := do
  if (← .read fun store => (store.links n).parent).isNone then
    .fail (.tree (.noParent (← .read fun store => (store.data n).name)))
  .perform (.report (.expanding name template))
  let tree ← parseFor c template name
  within g s (Script.walk steps tree resolve)
  let last ← .read (·.lastLeaf tree)
  Script.walk steps n resolve
  Script.drain n fun child => .perform (.append last child)
  splice tree n

/-- Does what the answer found for the name of `n` asks for, resolving further nodes with `resolve`. -/
def follow (c : Surroundings σ) (g : GuardId) (steps : Nat)
    (resolve : NodeId → Script σ Empty Unit) (n : NodeId) (name : String) (answer : Answer) :
    Script σ Empty Unit := do
  if ← isActive g answer then
    .perform (.report (.keeping name))
  else
    match answer with
    | .other kind _ => .fail (.badAnswer kind)
    | .snippet s =>
      match s.body with
      | .handler h => do
        .perform (.report (.passing name))
        (c.handle h n).serve resolve
      | .template text => replaceBy c g steps resolve n name s text

/-- Resolves `n` and all that its snippet brings in, under a guard that is in use already and at
most `depth` expansions deep. A snippet that is under expansion is not expanded again within its own
template, so templates may mention themselves. -/
def under (c : Surroundings σ) (g : GuardId) (steps : Nat) : Nat → NodeId → Script σ Empty Unit
  | 0, _ => .exhausted
  | depth + 1, n => do
    if let some name ← .read fun s => (s.data n).name then
      if let some answer ← c.lookup name then
        follow c g steps (under c g steps depth) n name answer

end Resolution

/-- Resolves one node under a guard of its own. -/
def resolveAt {σ : Type} (c : Surroundings σ) (limits : Limits) (n : NodeId) :
    Script σ Empty Unit := do
  let g ← Script.newGuard
  Resolution.under c g limits.steps limits.depth n

/-- Resolves every node below `root`, each in the surroundings that are `current` when it is
reached. Nodes brought in by a resolution are resolved already and not visited. -/
def resolveBelow {σ : Type} (current : Script σ Empty (Surroundings σ)) (limits : Limits)
    (root : NodeId) : Script σ Empty Unit :=
  Script.walk limits.steps root fun n => do
    resolveAt (← current) limits n

end SnippetTree
