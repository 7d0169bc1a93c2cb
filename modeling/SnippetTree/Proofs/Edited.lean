import SnippetTree.Proofs.Drawing

namespace SnippetTree

namespace Store

/-- The store after some edits. -/
def after (s : Store) (es : List Edit) : Store := es.foldl (fun s e => e.apply s) s

variable (s : Store)

@[simp] theorem after_cons (e : Edit) (es : List Edit) :
    s.after (e :: es) = (e.apply s).after es := rfl

theorem after_append (es es' : List Edit) : s.after (es ++ es') = (s.after es).after es' :=
  List.foldl_append

end Store

namespace Script

variable {σ α β : Type}

/-- The edits that a run makes, in order. A refused edit is not made. -/
def edits : Script σ Empty α → World σ → List Edit
  | done _, _ | fail _, _ | exhausted, _ => []
  | look next, w => (next w.store).edits w
  | edit e next, w =>
    match e.refusal? w.store with
    | some fault => (next (.error fault)).edits w
    | none => e :: (next (.ok ())).edits { w with store := e.apply w.store }
  | host change next, w => (next w.state).edits { w with state := change w.state }
  | ask r _, _ => nomatch r

/-- A run ends in the store that its edits make. -/
theorem store_run (p : Script σ Empty α) (w : World σ) :
    (p.run w).2.store = w.store.after (p.edits w) := by
  induction p generalizing w with
  | done | fail | exhausted => rfl
  | look next ih => exact ih w.store w
  | edit e next ih =>
    simp only [run, edits]
    cases e.refusal? w.store with
    | some fault => exact ih (.error fault) w
    | none => exact ih (.ok ()) _
  | host change next ih => exact ih w.state { w with state := change w.state }
  | ask r _ => exact r.elim

theorem edits_bind (p : Script σ Empty α) (f : α → Script σ Empty β) (w : World σ) :
    (p.bind f).edits w = p.edits w ++
      match p.run w with
      | (.done a, w') => (f a).edits w'
      | _ => [] := by
  induction p generalizing w with
  | done | fail | exhausted => rfl
  | look next ih => exact ih w.store w
  | edit e next ih =>
    simp only [bind, run, edits]
    cases e.refusal? w.store with
    | some fault => exact ih (.error fault) w
    | none => exact congrArg (e :: ·) (ih (.ok ()) _)
  | host change next ih => exact ih w.state { w with state := change w.state }
  | ask r _ => exact r.elim

theorem edits_attempt (p : Script σ Empty α) (w : World σ) : p.attempt.edits w = p.edits w := by
  induction p generalizing w with
  | done | fail | exhausted => rfl
  | look next ih => exact ih w.store w
  | edit e next ih =>
    simp only [attempt, edits]
    cases e.refusal? w.store with
    | some fault => exact ih (.error fault) w
    | none => exact congrArg (e :: ·) (ih (.ok ()) _)
  | host change next ih => exact ih w.state { w with state := change w.state }
  | ask r _ => exact r.elim

theorem edits_ensuring {last : Edit} (ok : ∀ s, last.refusal? s = none) (p : Script σ Empty α)
    (w : World σ) : (p.ensuring last).edits w = p.edits w ++ [last] := by
  induction p generalizing w with
  | done | fail | exhausted => simp only [ensuring, edits, ok, List.nil_append]
  | look next ih => exact ih w.store w
  | edit e next ih =>
    simp only [ensuring, edits]
    cases e.refusal? w.store with
    | some fault => exact ih (.error fault) w
    | none => exact congrArg (e :: ·) (ih (.ok ()) _)
  | host change next ih => exact ih w.state { w with state := change w.state }
  | ask r _ => exact r.elim

end Script

namespace Edit

variable {s : Store} {e : Edit} {g : GuardId}

/-- The edit neither enters nor leaves the guard. -/
def Spares (g : GuardId) : Edit → Prop
  | enter g' _ | leave g' _ => g' ≠ g
  | _ => True

theorem guards_apply (s : Store) (e : Edit) :
    (e.apply s).guards = match e with
      | addGuard => s.guards.push {}
      | enter g x => s.guards.modify g.index (·.insert x)
      | leave g x => s.guards.modify g.index (·.erase x)
      | _ => s.guards := by
  have of_alters : ∀ {s' : Store}, s.AltersNodes s' → s'.guards = s.guards := by
    rintro s' ⟨nodes, _, rfl⟩
    rfl
  cases e with
  | addNode | addAttribute | addRepetition | writeAttribute | writeRepetition | setName | setValue
  | setSelfClosing | setRepetition | setClasses | addClass | removeAttribute | clearAttributes
  | addGuard | enter | leave | report => rfl
  | setAttribute n a => exact of_alters (s.altersNodes_setAttribute n a)
  | append p c => exact of_alters (s.altersNodes_append p c)
  | insertBefore p c reference =>
    cases reference with
    | none => exact of_alters (s.altersNodes_append p c)
    | some r => exact of_alters (s.altersNodes_insertBefore p c r)
  | detach c => exact of_alters (s.altersNodes_detach c)

theorem size_guards_le (s : Store) (e : Edit) : s.guards.size ≤ (e.apply s).guards.size := by
  rw [guards_apply]
  split <;> simp

end Edit

end SnippetTree
