import SnippetTree.Proofs.Edited
import SnippetTree.Script.Walking

namespace SnippetTree.Script

variable {σ ρ ρ' α β : Type}

/-- An edit that a run made, or a request that it asked. -/
inductive Entry (ρ : Type) where
  | edit (e : Edit)
  | asked (request : ρ)

namespace Entry

def edit? : Entry ρ → Option Edit
  | edit e => some e
  | asked _ => none

def edits (es : List (Entry ρ)) : List Edit := es.filterMap edit?

@[simp] theorem edits_nil : edits ([] : List (Entry ρ)) = [] := rfl

@[simp] theorem edits_edit (e : Edit) (es : List (Entry ρ)) :
    edits (edit e :: es) = e :: edits es := rfl

@[simp] theorem edits_asked (r : ρ) (es : List (Entry ρ)) : edits (asked r :: es) = edits es := rfl

@[simp] theorem edits_append (es es' : List (Entry ρ)) : edits (es ++ es') = edits es ++ edits es' :=
  List.filterMap_append

end Entry

/-- The script without its requests, as if each of them were granted. -/
def granted : Script σ ρ α → Script σ Empty α := serve fun _ => done ()

/-- What a run does, in order, while all that it asks for is granted. A refused edit is not made. -/
def transcript : Script σ ρ α → World σ → List (Entry ρ)
  | done _, _ | fail _, _ | exhausted, _ => []
  | look next, w => (next w.store).transcript w
  | edit e next, w =>
    match e.refusal? w.store with
    | some fault => (next (.error fault)).transcript w
    | none => .edit e :: (next (.ok ())).transcript { w with store := e.apply w.store }
  | host change next, w => (next w.state).transcript { w with state := change w.state }
  | ask r next, w => .asked r :: (next (.ok ())).transcript w

theorem edits_transcript (p : Script σ ρ α) (w : World σ) :
    Entry.edits (p.transcript w) = p.granted.edits w := by
  induction p generalizing w with
  | done | fail | exhausted => rfl
  | look next ih => exact ih w.store w
  | edit e next ih =>
    simp only [transcript, granted, serve, edits]
    cases e.refusal? w.store with
    | some fault => exact ih (.error fault) w
    | none => exact congrArg (e :: ·) (ih (.ok ()) _)
  | host change next ih => exact ih w.state { w with state := change w.state }
  | ask r next ih => exact ih (.ok ()) w

theorem transcript_bind (p : Script σ ρ α) (f : α → Script σ ρ β) (w : World σ) :
    (p.bind f).transcript w = p.transcript w ++
      match p.granted.run w with
      | (.done a, w') => (f a).transcript w'
      | _ => [] := by
  induction p generalizing w with
  | done | fail | exhausted => rfl
  | look next ih => exact ih w.store w
  | edit e next ih =>
    simp only [bind, granted, serve, run, transcript]
    cases e.refusal? w.store with
    | some fault => exact ih (.error fault) w
    | none => exact congrArg (.edit e :: ·) (ih (.ok ()) _)
  | host change next ih => exact ih w.state { w with state := change w.state }
  | ask r next ih => exact congrArg (.asked r :: ·) (ih (.ok ()) w)

theorem transcript_attempt (p : Script σ ρ α) (w : World σ) :
    p.attempt.transcript w = p.transcript w := by
  induction p generalizing w with
  | done | fail | exhausted => rfl
  | look next ih => exact ih w.store w
  | edit e next ih =>
    simp only [attempt, transcript]
    cases e.refusal? w.store with
    | some fault => exact ih (.error fault) w
    | none => exact congrArg (.edit e :: ·) (ih (.ok ()) _)
  | host change next ih => exact ih w.state { w with state := change w.state }
  | ask r next ih => exact congrArg (.asked r :: ·) (ih (.ok ()) w)

theorem transcript_ensuring {last : Edit} (ok : ∀ s, last.refusal? s = none) (p : Script σ ρ α)
    (w : World σ) : (p.ensuring last).transcript w = p.transcript w ++ [.edit last] := by
  induction p generalizing w with
  | done | fail | exhausted => simp only [ensuring, transcript, ok, List.nil_append]
  | look next ih => exact ih w.store w
  | edit e next ih =>
    simp only [ensuring, transcript]
    cases e.refusal? w.store with
    | some fault => exact ih (.error fault) w
    | none => exact congrArg (.edit e :: ·) (ih (.ok ()) _)
  | host change next ih => exact ih w.state { w with state := change w.state }
  | ask r next ih => exact congrArg (.asked r :: ·) (ih (.ok ()) w)

/-- The script followed by a request that is asked however the script ends. -/
def concluding (last : ρ) : Script σ ρ α → Script σ ρ α
  | done a => ask last fun _ => done a
  | fail fault => ask last fun _ => fail fault
  | exhausted => ask last fun _ => exhausted
  | look next => look fun store => (next store).concluding last
  | edit e next => edit e fun out => (next out).concluding last
  | host change next => host change fun state => (next state).concluding last
  | ask r next => ask r fun out => (next out).concluding last

theorem transcript_concluding (last : ρ) (p : Script σ ρ α) (w : World σ) :
    (p.concluding last).transcript w = p.transcript w ++ [.asked last] := by
  induction p generalizing w with
  | done | fail | exhausted => rfl
  | look next ih => exact ih w.store w
  | edit e next ih =>
    simp only [concluding, transcript]
    cases e.refusal? w.store with
    | some fault => exact ih (.error fault) w
    | none => exact congrArg (.edit e :: ·) (ih (.ok ()) _)
  | host change next ih => exact ih w.state { w with state := change w.state }
  | ask r next ih => exact congrArg (.asked r :: ·) (ih (.ok ()) w)

theorem transcript_closed (p : Script σ Empty α) (w : World σ) :
    (p.closed : Script σ ρ α).transcript w = (p.edits w).map .edit := by
  induction p generalizing w with
  | done | fail | exhausted => rfl
  | look next ih => exact ih w.store w
  | edit e next ih =>
    simp only [closed, serve, transcript, edits]
    cases e.refusal? w.store with
    | some fault => exact ih (.error fault) w
    | none => exact congrArg (.edit e :: ·) (ih (.ok ()) _)
  | host change next ih => exact ih w.state { w with state := change w.state }
  | ask r _ => exact r.elim

@[simp] theorem granted_pure (a : α) : (pure a : Script σ ρ α).granted = pure a := rfl

@[simp] theorem granted_fail (fault : Fault) :
    (fail fault : Script σ ρ α).granted = fail fault := rfl

@[simp] theorem granted_read (f : Store → α) : (read f : Script σ ρ α).granted = read f := rfl

@[simp] theorem granted_perform (e : Edit) : (perform e : Script σ ρ Unit).granted = perform e :=
  congrArg (edit e) (funext fun out => by cases out <;> rfl)

theorem granted_bind (p : Script σ ρ α) (f : α → Script σ ρ β) :
    (p >>= f).granted = p.granted >>= fun a => (f a).granted :=
  serve_bind _ p f

theorem granted_closed (p : Script σ Empty α) : (p.closed : Script σ ρ α).granted = p := by
  induction p with
  | done | fail | exhausted => rfl
  | look next ih => exact congrArg look (funext ih)
  | edit e next ih => exact congrArg (edit e) (funext ih)
  | host change next ih => exact congrArg (host change) (funext ih)
  | ask r _ => exact r.elim

theorem granted_concluding (last : ρ) (p : Script σ ρ α) : (p.concluding last).granted = p.granted := by
  induction p with
  | done | fail | exhausted => rfl
  | look next ih => exact congrArg look (funext ih)
  | edit e next ih => exact congrArg (edit e) (funext ih)
  | host change next ih => exact congrArg (host change) (funext ih)
  | ask r next ih => exact ih (.ok ())

/-- The script between two requests, of which the second is asked however it ends. -/
def between (first last : ρ) (p : Script σ ρ α) : Script σ ρ α := do
  request first
  p.concluding last

theorem granted_between (first last : ρ) (p : Script σ ρ α) :
    (p.between first last).granted = p.granted :=
  (granted_bind _ _).trans (granted_concluding last p)

theorem transcript_between (first last : ρ) (p : Script σ ρ α) (w : World σ) :
    (p.between first last).transcript w = .asked first :: (p.transcript w ++ [.asked last]) := by
  rw [← transcript_concluding]
  rfl

theorem granted_ensuring (last : Edit) (p : Script σ ρ α) :
    (p.ensuring last).granted = p.granted.ensuring last := by
  induction p with
  | done | fail | exhausted => rfl
  | look next ih => exact congrArg look (funext ih)
  | edit e next ih => exact congrArg (edit e) (funext ih)
  | host change next ih => exact congrArg (host change) (funext ih)
  | ask r next ih => exact ih (.ok ())

theorem granted_attempt (p : Script σ ρ α) : p.attempt.granted = p.granted.attempt := by
  induction p with
  | done | fail | exhausted => rfl
  | look next ih => exact congrArg look (funext ih)
  | edit e next ih => exact congrArg (edit e) (funext ih)
  | host change next ih => exact congrArg (host change) (funext ih)
  | ask r next ih => exact ih (.ok ())

theorem granted_serve (answer : ρ → Script σ ρ' Unit) (p : Script σ ρ α) :
    (p.serve answer).granted = p.serve fun r => (answer r).granted := by
  induction p with
  | done | fail | exhausted => rfl
  | look next ih => exact congrArg look (funext ih)
  | edit e next ih => exact congrArg (edit e) (funext ih)
  | host change next ih => exact congrArg (host change) (funext ih)
  | ask r next ih =>
    change ((answer r).attempt >>= fun out => (next out).serve answer).granted = _
    rw [granted_bind, granted_attempt]
    exact congrArg ((answer r).granted.attempt >>= ·) (funext ih)

theorem granted_visitFrom (visit : NodeId → Script σ ρ Unit) (steps : Nat) (start : Option NodeId) :
    (visitFrom visit steps start).granted = visitFrom (fun n => (visit n).granted) steps start := by
  induction steps generalizing start with
  | zero => cases start <;> rfl
  | succ steps ih =>
    cases start with
    | none => rfl
    | some n =>
      simp only [visitFrom, granted_bind, ih]
      rfl

theorem granted_walk (steps : Nat) (n : NodeId) (visit : NodeId → Script σ ρ Unit) :
    (walk steps n visit).granted = walk steps n fun c => (visit c).granted := by
  induction steps generalizing n with
  | zero => rfl
  | succ steps ih =>
    simp only [walk, visitChildren, granted_bind, granted_visitFrom, ih]
    rfl

section Composes

variable {Q : Store → List (Entry ρ) → Prop} {w : World σ}

/-- A property of transcripts and of the stores that they start from, which a transcript has where
its parts have it. -/
structure Composes (Q : Store → List (Entry ρ) → Prop) : Prop where
  nil : ∀ s, Q s []
  append : ∀ s es es', Q s es → Q (s.after (Entry.edits es)) es' → Q s (es ++ es')

theorem Composes.bind_of_run (composes : Composes Q) {p : Script σ ρ α} {f : α → Script σ ρ β}
    (h : Q w.store (p.transcript w))
    (rest : ∀ a w', p.granted.run w = (.done a, w') → Q w'.store ((f a).transcript w')) :
    Q w.store ((p >>= f).transcript w) := by
  rw [bind_eq, transcript_bind]
  refine composes.append _ _ _ h ?_
  rw [edits_transcript, ← store_run]
  rcases hrun : p.granted.run w with ⟨out, w'⟩
  cases out with
  | done a => exact rest a w' hrun
  | failed | exhausted => exact composes.nil _

/-- Wherever it starts, the script has transcripts with the property. -/
def Tells (Q : Store → List (Entry ρ) → Prop) (p : Script σ ρ α) : Prop :=
  ∀ w, Q w.store (p.transcript w)

namespace Composes

theorem bind (composes : Composes Q) {p : Script σ ρ α} {f : α → Script σ ρ β} (h : p.Tells Q)
    (rest : ∀ a, (f a).Tells Q) : (p >>= f).Tells Q :=
  fun w => composes.bind_of_run (h w) fun a w' _ => rest a w'

theorem read (composes : Composes Q) (f : Store → α) : (read f : Script σ ρ α).Tells Q :=
  fun _ => composes.nil _

theorem visitFrom (composes : Composes Q) {visit : NodeId → Script σ ρ Unit}
    (h : ∀ n, (visit n).Tells Q) (steps : Nat) (start : Option NodeId) :
    (visitFrom visit steps start).Tells Q := by
  induction steps generalizing start with
  | zero => cases start <;> exact fun _ => composes.nil _
  | succ steps ih =>
    cases start with
    | none => exact fun _ => composes.nil _
    | some n =>
      exact composes.bind (composes.read _) fun following =>
        composes.bind (h n) fun _ => ih following

theorem walk (composes : Composes Q) {visit : NodeId → Script σ ρ Unit} (h : ∀ n, (visit n).Tells Q)
    (steps : Nat) (n : NodeId) : (walk steps n visit).Tells Q := by
  induction steps generalizing n with
  | zero => exact fun _ => composes.nil _
  | succ steps ih =>
    refine composes.bind (composes.read _) fun first => ?_
    exact composes.visitFrom (fun child => composes.bind (h child) fun _ => ih child) steps first

end Composes

end Composes

end SnippetTree.Script
