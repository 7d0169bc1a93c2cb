import SnippetTree.Proofs.Transcript
import SnippetTree.Resolution

namespace SnippetTree

/-- A mark that the walk over the tree of the template of a snippet begins, or that it has ended. -/
inductive Mark where
  | opens (x : Snippet)
  | closes (x : Snippet)

open Script

variable {σ : Type}

namespace Mark

/-- What an entry makes of the snippets whose templates are being walked, the latest one first. -/
def track (xs : List Snippet) : Entry Mark → List Snippet
  | .edit _ => xs
  | .asked (.opens x) => x :: xs
  | .asked (.closes x) => xs.erase x

@[simp] theorem track_edit (xs : List Snippet) (e : Edit) : track xs (.edit e) = xs := rfl

@[simp] theorem track_opens (xs : List Snippet) (x : Snippet) :
    track xs (.asked (.opens x)) = x :: xs := rfl

@[simp] theorem track_closes (xs : List Snippet) (x : Snippet) :
    track (x :: xs) (.asked (.closes x)) = xs :=
  List.erase_cons_head ..

/-- The snippets whose templates are being walked after some entries. -/
def underway (es : List (Entry Mark)) : List Snippet := es.foldl track []

end Mark

namespace Resolution

/-- `replaceBy` with a mark where the walk over the tree of the template begins and where it ends. -/
def replaceByMarked (c : Surroundings σ) (g : GuardId) (steps : Nat)
    (resolve : NodeId → Script σ Mark Unit) (n : NodeId) (name : String) (s : Snippet)
    (template : String) : Script σ Mark Unit := do
  if (← .read fun store => (store.links n).parent).isNone then
    .fail (.tree (.noParent (← .read fun store => (store.data n).name)))
  .perform (.report (.expanding name template))
  let tree ← (parseFor c template name).closed
  within g s ((Script.walk steps tree resolve).between (.opens s) (.closes s))
  let last ← .read (·.lastLeaf tree)
  Script.walk steps n resolve
  (Script.drain n fun child => .perform (.append last child)).closed
  (splice tree n).closed

def followMarked (c : Surroundings σ) (g : GuardId) (steps : Nat)
    (resolve : NodeId → Script σ Mark Unit) (n : NodeId) (name : String) (answer : Answer) :
    Script σ Mark Unit := do
  if ← (isActive g answer).closed then
    .perform (.report (.keeping name))
  else
    match answer with
    | .other kind _ => .fail (.badAnswer kind)
    | .snippet s =>
      match s.body with
      | .handler h => do
        .perform (.report (.passing name))
        (c.handle h n).serve resolve
      | .template text => replaceByMarked c g steps resolve n name s text

/-- The resolution under a guard with marks for the walks over templates, also for those that it
makes for a handler. -/
def underMarked (c : Surroundings σ) (g : GuardId) (steps : Nat) : Nat → NodeId → Script σ Mark Unit
  | 0, _ => .exhausted
  | depth + 1, n => do
    if let some name ← .read fun s => (s.data n).name then
      if let some answer ← (c.lookup name).closed then
        followMarked c g steps (underMarked c g steps depth) n name answer

/-- The resolution of all nodes below `root`, with marks. -/
def belowMarked (current : Script σ Empty (Surroundings σ)) (limits : Limits) (root : NodeId) :
    Script σ Mark Unit :=
  Script.walk limits.steps root fun n => do
    let c ← current.closed
    let g ← Script.newGuard
    underMarked c g limits.steps limits.depth n

variable {c : Surroundings σ} {g : GuardId} {steps : Nat} {resolve : NodeId → Script σ Mark Unit}
  {n : NodeId} {name : String}

theorem granted_within {s : Snippet} {body : Script σ Mark Unit} :
    (within g s body).granted = within g s body.granted := by
  simp only [within, granted_bind, granted_perform, granted_ensuring]

theorem granted_replaceByMarked {s : Snippet} {text : String} :
    (replaceByMarked c g steps resolve n name s text).granted =
      replaceBy c g steps (fun m => (resolve m).granted) n name s text := by
  simp only [replaceByMarked, replaceBy, apply_ite granted, granted_bind, granted_read,
    granted_fail, granted_perform, granted_closed, granted_within, granted_between, granted_walk]

theorem granted_followMarked {answer : Answer} :
    (followMarked c g steps resolve n name answer).granted =
      follow c g steps (fun m => (resolve m).granted) n name answer := by
  rcases answer with ⟨serial, ⟨text⟩ | ⟨h⟩, given⟩ | ⟨kind, comparable⟩ <;>
    simp only [followMarked, follow, apply_ite granted, granted_bind, granted_fail,
      granted_perform, granted_closed, granted_serve, granted_replaceByMarked]

/-- The marks change nothing: without them the marked resolution is the resolution. -/
theorem granted_underMarked (depth : Nat) (n : NodeId) :
    (underMarked c g steps depth n).granted = under c g steps depth n := by
  induction depth generalizing n with
  | zero => rfl
  | succ depth ih =>
    rw [underMarked, under, granted_bind, granted_read]
    refine congrArg (_ >>= ·) (funext fun name => ?_)
    cases name with
    | none => rfl
    | some name =>
      refine (granted_bind ..).trans ?_
      rw [granted_closed]
      refine congrArg (_ >>= ·) (funext fun answer => ?_)
      cases answer with
      | none => rfl
      | some answer =>
        have same : (fun m => (underMarked c g steps depth m).granted) = under c g steps depth :=
          funext ih
        exact granted_followMarked.trans (by rw [same])

theorem granted_belowMarked (current : Script σ Empty (Surroundings σ)) (limits : Limits)
    (root : NodeId) : (belowMarked current limits root).granted = resolveBelow current limits root := by
  simp only [belowMarked, resolveBelow, resolveAt, newGuard, granted_walk, granted_bind,
    granted_closed, granted_read, granted_perform, granted_pure, granted_underMarked]

end Resolution

end SnippetTree
