import SnippetTree.Proofs.Edited
import SnippetTree.Proofs.Leading
import SnippetTree.Resolution

namespace SnippetTree

theorem Edit.exists_of_refusal? {e : Edit} {s : Store} {fault : Fault}
    (h : e.refusal? s = some fault) : ∃ t, fault = .tree t := by
  cases e with
  | append p c =>
    obtain ⟨t, _, rfl⟩ := Option.map_eq_some_iff.mp h
    exact ⟨t, rfl⟩
  | insertBefore p c r =>
    cases r with
    | none | some r =>
      obtain ⟨t, _, rfl⟩ := Option.map_eq_some_iff.mp h
      exact ⟨t, rfl⟩
  | _ => cases h

/-- Something that is said of faults, of the stores from which runs fail with them, and of the edits
that these make. Other edits before or after make no difference to it, and it holds of refusals. -/
structure Fault.Accounts (B : Fault → Store → List Edit → Prop) : Prop where
  refusal : ∀ t s, B (.tree t) s []
  earlier : ∀ fault s es es', B fault (s.after es) es' → B fault s (es ++ es')
  later : ∀ fault s es es', B fault s es → B fault s (es ++ es')

namespace Script

variable {σ ρ α β ι : Type} {B : Fault → Store → List Edit → Prop} {w : World σ}

/-- What is said of failures holds where the script fails in its run from the world. -/
def FailsFrom (B : Fault → Store → List Edit → Prop) (p : Script σ Empty α) (w : World σ) : Prop :=
  ∀ fault w', p.run w = (.failed fault, w') → B fault w.store (p.edits w)

/-- What is said of failures holds wherever the script fails. -/
def Fails (B : Fault → Store → List Edit → Prop) (p : Script σ Empty α) : Prop :=
  ∀ w, p.FailsFrom B w

theorem Fails.mono {B' : Fault → Store → List Edit → Prop} {p : Script σ Empty α} (h : p.Fails B)
    (weaker : ∀ fault s es, B fault s es → B' fault s es) : p.Fails B' :=
  fun w fault w' hrun => weaker fault _ _ (h w fault w' hrun)

theorem fails_pure (a : α) : (pure a : Script σ Empty α).Fails B := by
  rintro w fault w' ⟨⟩

theorem fails_exhausted : (exhausted : Script σ Empty α).Fails B := by
  rintro w fault w' ⟨⟩

theorem fails_fail {fault : Fault} (h : ∀ s, B fault s []) :
    (fail fault : Script σ Empty α).Fails B := by
  rintro w _ w' ⟨⟩
  exact h w.store

theorem fails_read (f : Store → α) : (read f : Script σ Empty α).Fails B := by
  rintro w fault w' ⟨⟩

section

variable (accounts : Fault.Accounts B)
include accounts

theorem fails_perform (e : Edit) : (perform e : Script σ Empty Unit).Fails B := by
  intro w fault w' hrun
  rw [run_perform] at hrun
  cases ok : e.refusal? w.store with
  | none =>
    rw [ok] at hrun
    cases hrun
  | some refusal =>
    rw [ok] at hrun
    cases hrun
    have none : (perform e : Script σ Empty Unit).edits w = [] := by
      simp only [perform, edits, ok]
      rfl
    obtain ⟨t, rfl⟩ := Edit.exists_of_refusal? ok
    rw [none]
    exact accounts.refusal t w.store

theorem FailsFrom.bind {p : Script σ Empty α} {f : α → Script σ Empty β} (h : p.FailsFrom B w)
    (rest : ∀ a w', p.run w = (.done a, w') → (f a).FailsFrom B w') :
    (p >>= f).FailsFrom B w := by
  intro fault w' hrun
  rw [bind_eq, run_bind] at hrun
  rw [bind_eq, edits_bind]
  rcases hp : p.run w with ⟨out, w₁⟩
  rw [hp] at hrun
  cases out with
  | done a =>
    have hstore : w₁.store = w.store.after (p.edits w) := by rw [← store_run, hp]
    exact accounts.earlier _ _ _ _ (hstore ▸ rest a w₁ hp fault w' hrun)
  | failed fault' =>
    cases hrun
    rw [List.append_nil]
    exact h fault w' hp
  | exhausted => cases hrun

theorem Fails.bind {p : Script σ Empty α} {f : α → Script σ Empty β} (h : p.Fails B)
    (rest : ∀ a, (∃ w w', p.run w = (.done a, w')) → (f a).Fails B) : (p >>= f).Fails B :=
  fun w => (h w).bind accounts fun a w' hrun => rest a ⟨w, w', hrun⟩ w'

theorem Fails.ensuring {p : Script σ Empty α} (h : p.Fails B) {last : Edit}
    (ok : ∀ s, last.refusal? s = none) : (p.ensuring last).Fails B := by
  intro w fault w' hrun
  rw [run_ensuring] at hrun
  rcases hp : p.run w with ⟨out, w₁⟩
  rw [hp] at hrun
  cases hrun
  rw [edits_ensuring ok]
  exact accounts.later _ _ _ _ (h w fault w₁ hp)

theorem FailsFrom.attempt_bind {p : Script σ Empty α} {f : Except Fault α → Script σ Empty β}
    (ok : ∀ a w', p.run w = (.done a, w') → (f (.ok a)).FailsFrom B w')
    (error : ∀ fault w', p.run w = (.failed fault, w') → ∀ fault' w'',
      (f (.error fault)).run w' = (.failed fault', w'') →
        B fault' w.store (p.edits w ++ (f (.error fault)).edits w')) :
    (p.attempt >>= f).FailsFrom B w := by
  intro fault w' hrun
  rw [bind_eq, run_bind, run_attempt] at hrun
  rw [bind_eq, edits_bind, run_attempt, edits_attempt]
  rcases hp : p.run w with ⟨out, w₁⟩
  rw [hp] at hrun
  cases out with
  | done a =>
    have hstore : w₁.store = w.store.after (p.edits w) := by rw [← store_run, hp]
    exact accounts.earlier _ _ _ _ (hstore ▸ ok a w₁ hp fault w' hrun)
  | failed fault' => exact error fault' w₁ hp fault w' hrun
  | exhausted => cases hrun

theorem fails_forM {f : ι → Script σ Empty Unit} (h : ∀ i, (f i).Fails B) (is : List ι) :
    (is.forM f).Fails B := by
  induction is with
  | nil => exact fails_pure ()
  | cons i is ih => exact (h i).bind accounts fun _ _ => ih

theorem fails_mapM {f : ι → Script σ Empty α} (h : ∀ i, (f i).Fails B) (is : List ι) :
    (is.mapM f).Fails B := by
  induction is with
  | nil => exact fails_pure []
  | cons i is ih =>
    rw [List.mapM_cons]
    exact (h i).bind accounts fun _ _ => ih.bind accounts fun _ _ => fails_pure _

theorem fails_drain {n : NodeId} {move : NodeId → Script σ Empty Unit} (h : ∀ c, (move c).Fails B) :
    (drain n move).Fails B := by
  have within : ∀ bound, (drainWithin n move bound).Fails B := by
    intro bound
    induction bound with
    | zero => exact fails_exhausted
    | succ bound ih =>
      refine (fails_read _).bind accounts fun first _ => ?_
      cases first with
      | none => exact fails_pure ()
      | some c => exact (h c).bind accounts fun _ _ => ih
  exact (fails_read _).bind accounts fun bound _ => within bound

theorem fails_visitFrom {visit : NodeId → Script σ Empty Unit} (h : ∀ n, (visit n).Fails B)
    (steps : Nat) (start : Option NodeId) : (visitFrom visit steps start).Fails B := by
  induction steps generalizing start with
  | zero =>
    cases start with
    | none => exact fails_pure ()
    | some n => exact fails_exhausted
  | succ steps ih =>
    cases start with
    | none => exact fails_pure ()
    | some n =>
      exact (fails_read _).bind accounts fun next _ => (h n).bind accounts fun _ _ => ih next

theorem fails_walk {visit : NodeId → Script σ Empty Unit} (h : ∀ n, (visit n).Fails B)
    (steps : Nat) (n : NodeId) : (walk steps n visit).Fails B := by
  induction steps generalizing n with
  | zero => exact fails_exhausted
  | succ steps ih =>
    exact (fails_read _).bind accounts fun first _ =>
      fails_visitFrom accounts (fun c => (h c).bind accounts fun _ _ => ih c) steps first

theorem fails_newAttribute (record : Attribute) :
    (newAttribute record : Script σ Empty AttributeId).Fails B :=
  (fails_read _).bind accounts fun _ _ =>
    (fails_perform accounts _).bind accounts fun _ _ => fails_pure _

theorem fails_newRepetition (record : Repetition) :
    (newRepetition record : Script σ Empty RepetitionId).Fails B :=
  (fails_read _).bind accounts fun _ _ =>
    (fails_perform accounts _).bind accounts fun _ _ => fails_pure _

theorem fails_merge (source target : NodeId) : (merge source target : Script σ Empty Unit).Fails B := by
  have step : ∀ e, (perform e : Script σ Empty Unit).Fails B := fails_perform accounts
  rw [Store.merge_eq]
  refine (fails_read _).bind accounts fun e _ => .bind accounts ?_ fun _ _ => .bind accounts ?_
    fun _ _ => .bind accounts ?_ fun _ _ => .bind accounts ?_ fun _ _ => ?_
  · split
    · exact step _
    · exact fails_pure ()
  · split
    · exact step _
    · exact fails_pure ()
  · cases e.repetition with
    | none => exact fails_pure ()
    | some record => exact (fails_newRepetition accounts record).bind accounts fun _ _ => step _
  · exact (fails_read _).bind accounts fun names _ => fails_forM accounts (fun _ => step _) names
  · refine (fails_read _).bind accounts fun records _ =>
      (fails_mapM accounts (fails_newAttribute accounts) records).bind accounts fun as _ => ?_
    exact (step _).bind accounts fun _ _ => fails_forM accounts (fun _ => step _) as

end

/-- Whatever the script fails with is among the faults, as long as what it asks for fails with nothing
else. It may catch what it asks for. -/
def Raises (A : Fault → Prop) : Script σ ρ α → Prop
  | done _ | exhausted => True
  | fail fault => A fault
  | look next => ∀ s, (next s).Raises A
  | edit e next => (next (.ok ())).Raises A ∧
      ∀ s fault, e.refusal? s = some fault → (next (.error fault)).Raises A
  | host _ next => ∀ state, (next state).Raises A
  | ask _ next => (next (.ok ())).Raises A ∧ ∀ fault, A fault → (next (.error fault)).Raises A

/-- A fault that a handler is told of is one that it may raise, or says all that is to be said. -/
theorem Raises.fails_serve (accounts : Fault.Accounts B) {A : Fault → Prop} {p : Script σ ρ α}
    (h : p.Raises A) (own : ∀ fault s, A fault → B fault s [])
    (told : ∀ fault s es, B fault s es → A fault ∨ ∀ fault', B fault' s es)
    {answer : ρ → Script σ Empty Unit} (answers : ∀ r, (answer r).Fails B) :
    (p.serve answer).Fails B := by
  induction p with
  | done a => exact fails_pure a
  | fail fault => exact fails_fail fun s => own fault s h
  | exhausted => exact fails_exhausted
  | look next ih => exact fun w => ih w.store (h w.store) w
  | edit e next ih =>
    intro w fault w' hrun
    simp only [serve, run] at hrun
    simp only [serve, edits]
    cases ok : e.refusal? w.store with
    | some refusal =>
      rw [ok] at hrun
      exact ih _ (h.2 w.store refusal ok) w fault w' hrun
    | none =>
      rw [ok] at hrun
      exact accounts.earlier fault w.store [e] _ (ih _ h.1 _ fault w' hrun)
  | host change next ih => exact fun w => ih w.state (h w.state) { w with state := change w.state }
  | ask r next ih =>
    refine fun w => FailsFrom.attempt_bind accounts (fun _ w' _ => ih _ h.1 w') ?_
    intro fault w' hrun fault' w'' hrun'
    have asked : B fault w.store ((answer r).edits w) := answers r w fault w' hrun
    rcases told _ _ _ asked with known | all
    · have hstore : w'.store = w.store.after ((answer r).edits w) := by rw [← store_run, hrun]
      exact accounts.earlier _ _ _ _ (hstore ▸ ih _ (h.2 fault known) w' fault' w'' hrun')
    -- the handler was told of a fault that is not its own, and may make of it what it likes
    · exact accounts.later _ _ _ _ (all fault')

end Script

end SnippetTree
