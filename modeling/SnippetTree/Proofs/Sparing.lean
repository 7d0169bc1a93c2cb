import SnippetTree.Proofs.Edited
import SnippetTree.Proofs.Planting
import SnippetTree.Proofs.Walked

namespace SnippetTree

open Script

variable {σ ρ ρ' α β : Type} {g : GuardId} {s : Store} {w : World σ}

theorem Edit.guardAt_apply {e : Edit} (spares : e.Spares g) (s : Store) :
    (e.apply s).guardAt g = s.guardAt g := by
  have of_ne : ∀ (g' : GuardId) (f : Guard → Guard), g' ≠ g →
      (s.guards.modify g'.index f).getD g.index default = s.guardAt g := by
    intro g' f hne
    have hindex : g'.index ≠ g.index := fun he => hne (by cases g; cases g'; simpa using he)
    simp [Store.guardAt, Array.getD_eq_getD_getElem?, Array.getElem?_modify, hindex]
  rw [Store.guardAt, guards_apply]
  cases e with
  | enter g' x => exact of_ne g' _ spares
  | leave g' x => exact of_ne g' _ spares
  | addGuard =>
    simp only [Store.guardAt, Array.getD_eq_getD_getElem?, Array.getElem?_push]
    split
    next h => simp [h]; rfl
    next => rfl
  | _ => rfl

namespace Store

def HasGuard (s : Store) (g : GuardId) : Prop := g.index < s.guards.size

theorem HasGuard.apply (held : s.HasGuard g) (e : Edit) : (e.apply s).HasGuard g :=
  Nat.lt_of_lt_of_le held (Edit.size_guards_le s e)

theorem HasGuard.after (held : s.HasGuard g) (es : List Edit) : (s.after es).HasGuard g := by
  induction es generalizing s with
  | nil => exact held
  | cons e es ih => exact ih (held.apply e)

theorem HasGuard.enter (held : s.HasGuard g) (x : Snippet) :
    ((Edit.enter g x).apply s).guardAt g = (s.guardAt g).insert x := by
  simp only [Edit.apply]
  rw [guardAt_modify held, if_pos rfl]

theorem HasGuard.leave (held : s.HasGuard g) (x : Snippet) :
    ((Edit.leave g x).apply s).guardAt g = (s.guardAt g).erase x := by
  simp only [Edit.apply]
  rw [guardAt_modify held, if_pos rfl]

theorem HasGuard.leave_enter {s' : Store} {x : Snippet} (held : s.HasGuard g) (held' : s'.HasGuard g)
    (inactive : (s.guardAt g).contains x = false)
    (same : s'.guardAt g = ((Edit.enter g x).apply s).guardAt g) :
    ((Edit.leave g x).apply s').guardAt g = s.guardAt g := by
  rw [held'.leave, same, held.enter, Guard.erase_insert inactive]

end Store

namespace Script

/-- The script neither enters nor leaves the guard, in whichever stores that hold it. -/
def Spares (g : GuardId) : Script σ ρ α → Prop
  | done _ | fail _ | exhausted => True
  | look next => ∀ s : Store, s.HasGuard g → (next s).Spares g
  | edit e next => e.Spares g ∧ ∀ out, (next out).Spares g
  | host _ next => ∀ state, (next state).Spares g
  | ask _ next => ∀ out, (next out).Spares g

theorem Spares.bind {p : Script σ ρ α} {f : α → Script σ ρ β} (h : p.Spares g)
    (rest : ∀ a, (f a).Spares g) : (p >>= f).Spares g := by
  rw [bind_eq]
  induction p with
  | done a => exact rest a
  | fail | exhausted => trivial
  | look next ih => exact fun s held => ih s (h s held)
  | edit e next ih => exact ⟨h.1, fun out => ih out (h.2 out)⟩
  | host change next ih => exact fun state => ih state (h state)
  | ask r next ih => exact fun out => ih out (h out)

theorem Spares.attempt {p : Script σ ρ α} (h : p.Spares g) : p.attempt.Spares g := by
  induction p with
  | done | fail | exhausted => trivial
  | look next ih => exact fun s held => ih s (h s held)
  | edit e next ih => exact ⟨h.1, fun out => ih out (h.2 out)⟩
  | host change next ih => exact fun state => ih state (h state)
  | ask r next ih => exact fun out => ih out (h out)

theorem spares_perform {e : Edit} (h : e.Spares g) : (perform e : Script σ ρ Unit).Spares g :=
  ⟨h, fun out => by cases out <;> trivial⟩

theorem spares_read (f : Store → α) : (read f : Script σ ρ α).Spares g := fun _ _ => trivial

theorem spares_forM {ι : Type} {f : ι → Script σ ρ Unit} (h : ∀ i, (f i).Spares g) (is : List ι) :
    (is.forM f).Spares g := by
  induction is with
  | nil => trivial
  | cons i is ih => exact (h i).bind fun _ => ih

theorem spares_mapM {ι : Type} {f : ι → Script σ ρ α} (h : ∀ i, (f i).Spares g) (is : List ι) :
    (is.mapM f).Spares g := by
  induction is with
  | nil => trivial
  | cons i is ih =>
    rw [List.mapM_cons]
    exact (h i).bind fun _ => ih.bind fun _ => trivial

theorem spares_newAttribute (record : Attribute) :
    (newAttribute record : Script σ ρ AttributeId).Spares g :=
  (spares_read _).bind fun _ => (spares_perform (by trivial)).bind fun _ => trivial

theorem spares_newRepetition (record : Repetition) :
    (newRepetition record : Script σ ρ RepetitionId).Spares g :=
  (spares_read _).bind fun _ => (spares_perform (by trivial)).bind fun _ => trivial

theorem spares_newElement (e : Element) : (newElement e : Script σ ρ NodeId).Spares g := by
  refine (spares_mapM spares_newAttribute _).bind fun attributes => .bind ?_ fun repetition => ?_
  · cases e.repetition with
    | none => trivial
    | some record => exact (spares_newRepetition record).bind fun _ => trivial
  · refine (spares_read _).bind fun _ => (spares_perform (by trivial)).bind fun _ => ?_
    exact (spares_forM (fun _ => spares_perform (by trivial)) _).bind fun _ =>
      (spares_forM (fun _ => spares_perform (by trivial)) _).bind fun _ => trivial

theorem spares_plantUnder (ts : List (Outline Element)) (n : NodeId) :
    (plantUnder n ts : Script σ ρ Unit).Spares g := by
  induction ts using Outline.forest_induction generalizing n with
  | nil => trivial
  | cons e cs ts ihc iht =>
    have first : (plant (.node e cs) : Script σ ρ NodeId).Spares g :=
      (spares_newElement e).bind fun m => (ihc m).bind fun _ => trivial
    refine first.bind fun _ => ?_
    exact (spares_perform (by trivial)).bind fun _ => iht n

theorem spares_plant (t : Outline Element) : (plant t : Script σ ρ NodeId).Spares g := by
  obtain ⟨e, cs⟩ := t
  exact (spares_newElement e).bind fun n => (spares_plantUnder cs n).bind fun _ => trivial

theorem spares_merge (source target : NodeId) :
    (merge source target : Script σ Empty Unit).Spares g := by
  rw [Store.merge_eq]
  refine (spares_read _).bind fun e => .bind ?_ fun _ => .bind ?_ fun _ => .bind ?_ fun _ =>
    .bind ?_ fun _ => ?_
  · split
    next => exact spares_perform (by trivial)
    next => trivial
  · split
    next => exact spares_perform (by trivial)
    next => trivial
  · split
    next => exact (spares_newRepetition _).bind fun _ => spares_perform (by trivial)
    next => trivial
  · exact (spares_read _).bind fun _ => spares_forM (fun _ => spares_perform (by trivial)) _
  · refine (spares_read _).bind fun _ => (spares_mapM spares_newAttribute _).bind fun _ => ?_
    exact (spares_perform (by trivial)).bind fun _ =>
      spares_forM (fun _ => spares_perform (by trivial)) _

theorem spares_drain {move : NodeId → Script σ ρ Unit} (h : ∀ n, (move n).Spares g) (n : NodeId) :
    (drain n move).Spares g := by
  refine (spares_read _).bind fun bound => ?_
  induction bound with
  | zero => trivial
  | succ bound ih =>
    refine (spares_read _).bind fun first => ?_
    cases first with
    | none => trivial
    | some c => exact (h c).bind fun _ => ih

end Script

theorem Resolution.spares_splice (tree n : NodeId) :
    (splice tree n : Script σ Empty Unit).Spares g := by
  refine (spares_read _).bind fun parent => .bind (spares_drain (fun top => ?_) tree) fun _ =>
    spares_perform (by trivial)
  cases parent with
  | none => trivial
  | some p => exact (spares_merge n top).bind fun _ => spares_perform (by trivial)

/-- What the surroundings do neither enters nor leaves the guard. -/
structure Surroundings.Spares (c : Surroundings σ) (g : GuardId) : Prop where
  lookup : ∀ name, (c.lookup name).Spares g
  parse : ∀ text, (c.parse text).Spares g
  handle : ∀ h n, (c.handle h n).Spares g

theorem Resolution.spares_parseFor {c : Surroundings σ} (spares : c.Spares g) (text name : String) :
    (parseFor c text name).Spares g :=
  (spares.parse text).attempt.bind fun out => by cases out <;> trivial

theorem Surroundings.planting_spares (r : Registry)
    (trees : String → Except Fault (Outline Element)) (g : GuardId) :
    (Surroundings.planting r trees : Surroundings σ).Spares g where
  lookup := fun _ => trivial
  parse := by
    intro text
    simp only [planting]
    split
    · exact spares_plant _
    · trivial
  handle := fun _ _ => trivial

end SnippetTree
