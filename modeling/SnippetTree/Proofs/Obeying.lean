import SnippetTree.Proofs.Reached
import SnippetTree.Script.Walking

namespace SnippetTree.Script

variable {σ ρ α β ι : Type} {E : Store → Edit → Prop} {w : World σ}

/-- In its run from the world the script makes only edits that the rule allows in the store in which
they are made, whatever comes of its requests and wherever these leave it. -/
def ObeysFrom (E : Store → Edit → Prop) : Script σ ρ α → World σ → Prop
  | done _, _ | fail _, _ | exhausted, _ => True
  | look next, w => (next w.store).ObeysFrom E w
  | edit e next, w =>
    match e.refusal? w.store with
    | some fault => (next (.error fault)).ObeysFrom E w
    | none => E w.store e ∧ (next (.ok ())).ObeysFrom E { w with store := e.apply w.store }
  | host change next, w => (next w.state).ObeysFrom E { w with state := change w.state }
  | ask _ next, _ => ∀ out w', (next out).ObeysFrom E w'

def Obeys (E : Store → Edit → Prop) (p : Script σ ρ α) : Prop := ∀ w, p.ObeysFrom E w

theorem ObeysFrom.stores {P : Store → Prop} (step : ∀ s e, P s → E s e → P (e.apply s))
    {p : Script σ Empty α} (h : p.ObeysFrom E w) (start : P w.store) : ∀ s ∈ p.stores w, P s := by
  induction p generalizing w with
  | done | fail | exhausted =>
    intro s hs
    exact List.mem_singleton.mp hs ▸ start
  | look next ih => exact ih w.store h start
  | edit e next ih =>
    intro s hs
    simp only [Script.stores, List.mem_cons] at hs
    simp only [ObeysFrom] at h
    rcases hs with rfl | hs
    · exact start
    · cases ok : e.refusal? w.store with
      | some fault =>
        rw [ok] at h hs
        exact ih _ h start s hs
      | none =>
        rw [ok] at h hs
        exact ih _ h.2 (step w.store e start h.1) s hs
  | host change next ih => exact ih w.state h start
  | ask r _ => exact r.elim

theorem storesOfAll_of_obeys {P : Store → Prop} (step : ∀ s e, P s → E s e → P (e.apply s))
    {ps : List (Script σ Empty Unit)} (obeys : ∀ p ∈ ps, p.Obeys E) (start : P w.store) :
    ∀ s ∈ storesOfAll ps w, P s := by
  induction ps generalizing w with
  | nil =>
    intro s hs
    exact List.mem_singleton.mp hs ▸ start
  | cons p ps ih =>
    have first : ∀ s ∈ p.stores w, P s := (obeys p List.mem_cons_self w).stores step start
    intro s hs
    rcases List.mem_append.mp hs with hs | hs
    · exact first s hs
    · exact ih (fun q hq => obeys q (List.mem_cons_of_mem p hq))
        (first _ (run_store_mem_stores p w)) s hs

theorem obeys_pure (a : α) : (pure a : Script σ ρ α).Obeys E := fun _ => trivial

theorem obeys_fail (fault : Fault) : (fail fault : Script σ ρ α).Obeys E := fun _ => trivial

theorem obeys_exhausted : (exhausted : Script σ ρ α).Obeys E := fun _ => trivial

theorem obeys_read (f : Store → α) : (read f : Script σ ρ α).Obeys E := fun _ => trivial

theorem obeys_edit {e : Edit} {next : Except Fault Unit → Script σ ρ α} (h : ∀ s, E s e)
    (rest : ∀ out, (next out).Obeys E) : (edit e next).Obeys E := by
  intro w
  simp only [ObeysFrom]
  split
  · exact rest _ w
  · exact ⟨h w.store, rest _ _⟩

theorem obeys_perform {e : Edit} (h : ∀ s, E s e) : (perform e : Script σ ρ Unit).Obeys E :=
  obeys_edit h fun out => by cases out <;> exact fun _ => trivial

theorem ObeysFrom.bind {p : Script σ Empty α} {f : α → Script σ Empty β} (h : p.ObeysFrom E w)
    (rest : ∀ a w', p.run w = (.done a, w') → (f a).ObeysFrom E w') : (p >>= f).ObeysFrom E w := by
  rw [bind_eq]
  induction p generalizing w with
  | done a => exact rest a w rfl
  | fail | exhausted => trivial
  | look next ih => exact ih w.store h rest
  | edit e next ih =>
    simp only [Script.bind, ObeysFrom, run] at h rest ⊢
    cases ok : e.refusal? w.store with
    | some fault =>
      rw [ok] at h rest
      exact ih _ h rest
    | none =>
      rw [ok] at h rest
      exact ⟨h.1, ih _ h.2 rest⟩
  | host change next ih => exact ih w.state h rest
  | ask r _ => exact r.elim

theorem Obeys.bind_of_run {p : Script σ Empty α} {f : α → Script σ Empty β} (h : p.Obeys E)
    (rest : ∀ a, (∃ w w', p.run w = (.done a, w')) → (f a).Obeys E) : (p >>= f).Obeys E :=
  fun w => (h w).bind fun a w' hrun => rest a ⟨w, w', hrun⟩ w'

theorem Obeys.bind {p : Script σ Empty α} {f : α → Script σ Empty β} (h : p.Obeys E)
    (rest : ∀ a, (f a).Obeys E) : (p >>= f).Obeys E :=
  h.bind_of_run fun a _ => rest a

theorem ObeysFrom.attempt {p : Script σ Empty α} (h : p.ObeysFrom E w) :
    p.attempt.ObeysFrom E w := by
  induction p generalizing w with
  | done | fail | exhausted => trivial
  | look next ih => exact ih w.store h
  | edit e next ih =>
    simp only [Script.attempt, ObeysFrom] at h ⊢
    cases ok : e.refusal? w.store with
    | some fault =>
      rw [ok] at h
      exact ih _ h
    | none =>
      rw [ok] at h
      exact ⟨h.1, ih _ h.2⟩
  | host change next ih => exact ih w.state h
  | ask r _ => exact r.elim

theorem Obeys.attempt {p : Script σ Empty α} (h : p.Obeys E) : p.attempt.Obeys E :=
  fun w => (h w).attempt

theorem ObeysFrom.ensuring {p : Script σ Empty α} (h : p.ObeysFrom E w) {last : Edit}
    (allowed : ∀ s, E s last) : (p.ensuring last).ObeysFrom E w := by
  induction p generalizing w with
  | done a => exact obeys_edit allowed (fun _ => obeys_pure a) w
  | fail fault => exact obeys_edit allowed (fun _ => obeys_fail fault) w
  | exhausted => exact obeys_edit allowed (fun _ => obeys_exhausted) w
  | look next ih => exact ih w.store h
  | edit e next ih =>
    simp only [Script.ensuring, ObeysFrom] at h ⊢
    cases ok : e.refusal? w.store with
    | some fault =>
      rw [ok] at h
      exact ih _ h
    | none =>
      rw [ok] at h
      exact ⟨h.1, ih _ h.2⟩
  | host change next ih => exact ih w.state h
  | ask r _ => exact r.elim

theorem ObeysFrom.serve {p : Script σ ρ α} (h : p.ObeysFrom E w) {answer : ρ → Script σ Empty Unit}
    (answers : ∀ r, (answer r).Obeys E) : (p.serve answer).ObeysFrom E w := by
  induction p generalizing w with
  | done | fail | exhausted => trivial
  | look next ih => exact ih w.store h
  | edit e next ih =>
    simp only [Script.serve, ObeysFrom] at h ⊢
    cases ok : e.refusal? w.store with
    | some fault =>
      rw [ok] at h
      exact ih _ h
    | none =>
      rw [ok] at h
      exact ⟨h.1, ih _ h.2⟩
  | host change next ih => exact ih w.state h
  | ask r next ih => exact ((answers r).attempt w).bind fun out w' _ => ih out (h out w')

theorem obeys_forM {f : ι → Script σ Empty Unit} (h : ∀ i, (f i).Obeys E) (is : List ι) :
    (is.forM f).Obeys E := by
  induction is with
  | nil => exact obeys_pure ()
  | cons i is ih => exact (h i).bind fun _ => ih

theorem obeys_mapM {f : ι → Script σ Empty α} (h : ∀ i, (f i).Obeys E) (is : List ι) :
    (is.mapM f).Obeys E := by
  induction is with
  | nil => exact obeys_pure []
  | cons i is ih =>
    rw [List.mapM_cons]
    exact (h i).bind fun _ => ih.bind fun _ => obeys_pure _

theorem obeys_visitFrom {visit : NodeId → Script σ Empty Unit} (h : ∀ n, (visit n).Obeys E)
    (steps : Nat) (start : Option NodeId) : (visitFrom visit steps start).Obeys E := by
  induction steps generalizing start with
  | zero =>
    cases start with
    | none => exact obeys_pure ()
    | some n => exact obeys_exhausted
  | succ steps ih =>
    cases start with
    | none => exact obeys_pure ()
    | some n => exact (obeys_read _).bind fun next => (h n).bind fun _ => ih next

theorem obeys_walk {visit : NodeId → Script σ Empty Unit} (h : ∀ n, (visit n).Obeys E) (steps : Nat)
    (n : NodeId) : (walk steps n visit).Obeys E := by
  induction steps generalizing n with
  | zero => exact obeys_exhausted
  | succ steps ih =>
    exact (obeys_read _).bind fun first =>
      obeys_visitFrom (fun c => (h c).bind fun _ => ih c) steps first

theorem obeys_drain {move : NodeId → Script σ Empty Unit} (h : ∀ c, (move c).Obeys E) (n : NodeId) :
    (drain n move).Obeys E := by
  refine (obeys_read _).bind fun bound => ?_
  induction bound with
  | zero => exact obeys_exhausted
  | succ bound ih =>
    refine (obeys_read _).bind fun first => ?_
    cases first with
    | none => exact obeys_pure ()
    | some c => exact (h c).bind fun _ => ih

end SnippetTree.Script
