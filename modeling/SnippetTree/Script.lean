import SnippetTree.Store.Edit

namespace SnippetTree

/-- A program that changes a store through edits only. Besides, it reads the store, uses the state
`σ` of whoever runs it, and asks requests of type `ρ`, which other scripts answer. A refused edit and
a failed request come back to the script as faults. -/
inductive Script (σ ρ α : Type) : Type where
  | done (a : α)
  | fail (fault : Fault)
  /-- The script was not finished within its bounds; this cannot be caught. -/
  | exhausted
  | look (next : Store → Script σ ρ α)
  | edit (e : Edit) (next : Except Fault Unit → Script σ ρ α)
  /-- Changes the runner's state and goes on with what it was. -/
  | host (change : σ → σ) (next : σ → Script σ ρ α)
  | ask (request : ρ) (next : Except Fault Unit → Script σ ρ α)

namespace Script

variable {σ ρ ρ' α β γ : Type}

def bind (s : Script σ ρ α) (f : α → Script σ ρ β) : Script σ ρ β :=
  match s with
  | done a => f a
  | fail fault => fail fault
  | exhausted => exhausted
  | look next => look fun store => (next store).bind f
  | edit e next => edit e fun out => (next out).bind f
  | host change next => host change fun state => (next state).bind f
  | ask request next => ask request fun out => (next out).bind f

instance : Monad (Script σ ρ) where
  pure := done
  bind := bind

theorem bind_eq (s : Script σ ρ α) (f : α → Script σ ρ β) : s >>= f = s.bind f := rfl

theorem bind_done (s : Script σ ρ α) : s.bind done = s := by
  induction s with
  | done a => rfl
  | fail fault => rfl
  | exhausted => rfl
  | look next ih => exact congrArg look (funext ih)
  | edit e next ih => exact congrArg (edit e) (funext ih)
  | host change next ih => exact congrArg (host change) (funext ih)
  | ask request next ih => exact congrArg (ask request) (funext ih)

theorem bind_assoc (s : Script σ ρ α) (f : α → Script σ ρ β) (g : β → Script σ ρ γ) :
    (s.bind f).bind g = s.bind fun a => (f a).bind g := by
  induction s with
  | done a => rfl
  | fail fault => rfl
  | exhausted => rfl
  | look next ih => exact congrArg look (funext ih)
  | edit e next ih => exact congrArg (edit e) (funext ih)
  | host change next ih => exact congrArg (host change) (funext ih)
  | ask request next ih => exact congrArg (ask request) (funext ih)

instance : LawfulMonad (Script σ ρ) :=
  LawfulMonad.mk' _ (fun s => bind_done s) (fun _ _ => rfl) (fun s f g => bind_assoc s f g)

/-- The script with its failure as a result. -/
def attempt : Script σ ρ α → Script σ ρ (Except Fault α)
  | done a => done (.ok a)
  | fail fault => done (.error fault)
  | exhausted => exhausted
  | look next => look fun store => (next store).attempt
  | edit e next => edit e fun out => (next out).attempt
  | host change next => host change fun state => (next state).attempt
  | ask request next => ask request fun out => (next out).attempt

/-- The script followed by an edit that is made however the script ends. -/
def ensuring (last : Edit) : Script σ ρ α → Script σ ρ α
  | done a => edit last fun _ => done a
  | fail fault => edit last fun _ => fail fault
  | exhausted => edit last fun _ => exhausted
  | look next => look fun store => (next store).ensuring last
  | edit e next => edit e fun out => (next out).ensuring last
  | host change next => host change fun state => (next state).ensuring last
  | ask request next => ask request fun out => (next out).ensuring last

def ofExcept : Except Fault α → Script σ ρ α
  | .ok a => done a
  | .error fault => fail fault

/-- The script with each of its requests answered by another script. -/
def serve (answer : ρ → Script σ ρ' Unit) : Script σ ρ α → Script σ ρ' α
  | done a => done a
  | fail fault => fail fault
  | exhausted => exhausted
  | look next => look fun store => (next store).serve answer
  | edit e next => edit e fun out => (next out).serve answer
  | host change next => host change fun state => (next state).serve answer
  | ask request next => (answer request).attempt.bind fun out => (next out).serve answer

/-- A script without requests, as one that might ask some. -/
def closed (s : Script σ Empty α) : Script σ ρ α := s.serve nofun

def read (f : Store → α) : Script σ ρ α := look fun store => done (f store)

/-- Makes one edit, and fails if it is refused. -/
def perform (e : Edit) : Script σ ρ Unit := edit e ofExcept

def request (r : ρ) : Script σ ρ Unit := ask r ofExcept

theorem serve_bind (answer : ρ → Script σ ρ' Unit) (s : Script σ ρ α) (f : α → Script σ ρ β) :
    (s.bind f).serve answer = (s.serve answer).bind fun a => (f a).serve answer := by
  induction s with
  | done a => rfl
  | fail fault => rfl
  | exhausted => rfl
  | look next ih => exact congrArg look (funext ih)
  | edit e next ih => exact congrArg (edit e) (funext ih)
  | host change next ih => exact congrArg (host change) (funext ih)
  | ask request next ih =>
    change (answer request).attempt.bind _ = ((answer request).attempt.bind _).bind _
    rw [bind_assoc]
    exact congrArg _ (funext ih)

end Script

end SnippetTree
