import SnippetTree.Script

namespace SnippetTree

inductive Outcome (α : Type) where
  | done (a : α)
  | failed (fault : Fault)
  | exhausted
  deriving DecidableEq

structure World (σ : Type) where
  store : Store
  state : σ

namespace Script

variable {σ α β : Type}

/-- A refused edit leaves the world as it is, and the script learns why it was refused. -/
def run : Script σ Empty α → World σ → Outcome α × World σ
  | done a, w => (.done a, w)
  | fail fault, w => (.failed fault, w)
  | exhausted, w => (.exhausted, w)
  | look next, w => (next w.store).run w
  | edit e next, w =>
    match e.refusal? w.store with
    | some fault => (next (.error fault)).run w
    | none => (next (.ok ())).run { w with store := e.apply w.store }
  | host change next, w => (next w.state).run { w with state := change w.state }
  | ask r _, _ => nomatch r

@[simp] theorem run_read (f : Store → α) (w : World σ) : (read f).run w = (.done (f w.store), w) :=
  rfl

theorem run_perform (e : Edit) (w : World σ) :
    (perform e).run w =
      match e.refusal? w.store with
      | some fault => (.failed fault, w)
      | none => (.done (), { w with store := e.apply w.store }) := by
  simp only [perform, run]
  split <;> rfl

theorem run_bind (s : Script σ Empty α) (f : α → Script σ Empty β) (w : World σ) :
    (s.bind f).run w =
      match s.run w with
      | (.done a, w) => (f a).run w
      | (.failed fault, w) => (.failed fault, w)
      | (.exhausted, w) => (.exhausted, w) := by
  induction s generalizing w with
  | done a => rfl
  | fail fault => rfl
  | exhausted => rfl
  | look next ih => exact ih w.store w
  | edit e next ih =>
    simp only [bind, run]
    split <;> exact ih ..
  | host change next ih => exact ih w.state { w with state := change w.state }
  | ask r _ => nomatch r

theorem run_attempt (s : Script σ Empty α) (w : World σ) :
    s.attempt.run w =
      match s.run w with
      | (.done a, w) => (.done (.ok a), w)
      | (.failed fault, w) => (.done (.error fault), w)
      | (.exhausted, w) => (.exhausted, w) := by
  induction s generalizing w with
  | done a => rfl
  | fail fault => rfl
  | exhausted => rfl
  | look next ih => exact ih w.store w
  | edit e next ih =>
    simp only [attempt, run]
    split <;> exact ih ..
  | host change next ih => exact ih w.state { w with state := change w.state }
  | ask r _ => nomatch r

theorem run_ensuring (last : Edit) (s : Script σ Empty α) (w : World σ) :
    (s.ensuring last).run w =
      ((s.run w).1, ((perform last : Script σ Empty Unit).run (s.run w).2).2) := by
  induction s generalizing w with
  | done a => simp only [ensuring, perform, run]; split <;> rfl
  | fail fault => simp only [ensuring, perform, run]; split <;> rfl
  | exhausted => simp only [ensuring, perform, run]; split <;> rfl
  | look next ih => exact ih w.store w
  | edit e next ih =>
    simp only [ensuring, run]
    split <;> exact ih ..
  | host change next ih => exact ih w.state { w with state := change w.state }
  | ask r _ => nomatch r

end Script

end SnippetTree
