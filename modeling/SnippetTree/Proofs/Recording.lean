import SnippetTree.Proofs.Survivors

namespace SnippetTree

open Script

variable {σ τ ρ α : Type}

/-- The script with a further state beside its own, which it leaves alone. -/
def Script.onFirst : Script σ ρ α → Script (σ × τ) ρ α
  | done a => done a
  | fail fault => fail fault
  | exhausted => exhausted
  | look next => look fun store => (next store).onFirst
  | edit e next => edit e fun out => (next out).onFirst
  | host change next => host (fun state => (change state.1, state.2)) fun state =>
      (next state.1).onFirst
  | ask r next => ask r fun out => (next out).onFirst

theorem Script.run_onFirst (p : Script σ Empty α) (w : World σ) (t : τ) :
    p.onFirst.run ⟨w.store, (w.state, t)⟩ =
      ((p.run w).1, ⟨(p.run w).2.store, ((p.run w).2.state, t)⟩) := by
  induction p generalizing w with
  | done | fail | exhausted => rfl
  | look next ih => exact ih w.store w
  | edit e next ih =>
    simp only [onFirst, run]
    cases e.refusal? w.store with
    | some fault => exact ih (.error fault) w
    | none => exact ih (.ok ()) { w with store := e.apply w.store }
  | host change next ih => exact ih w.state { w with state := change w.state }
  | ask r _ => exact r.elim

/-- Adds a call to the record. -/
def Script.record (call : Call) : Script (σ × List Call) ρ Unit :=
  host (fun state => (state.1, state.2 ++ [call])) fun _ => done ()

namespace Surroundings

/-- The surroundings with a record of the lookups, of the templates that are read, each with its
tree, and of what is handed over. -/
def recording (c : Surroundings σ) : Surroundings (σ × List Call) where
  lookup name := do
    record (.lookup name)
    (c.lookup name).onFirst
  parse text := do
    let tree ← (c.parse text).onFirst
    record (.parse text (← read (·.cells tree)))
    return tree
  handle h n := do
    record (.handle h)
    (c.handle h n).onFirst

end Surroundings

theorem Surroundings.exists_of_recording {c : Surroundings σ} {text : String} {s : Store} {a : σ}
    {calls : List Call} {tree : NodeId} {w' : World (σ × List Call)}
    (h : (c.recording.parse text).run ⟨s, (a, calls)⟩ = (.done tree, w')) :
    ∃ v, (c.parse text).run ⟨s, a⟩ = (.done tree, v) ∧ w'.store = v.store := by
  have hfirst := run_onFirst (c.parse text) ⟨s, a⟩ calls
  rcases hparse : (c.parse text).run ⟨s, a⟩ with ⟨out, v⟩
  rw [hparse] at hfirst
  simp only [recording, bind_eq, run_bind, hfirst] at h
  cases out with
  | done t =>
    cases h
    exact ⟨v, rfl, rfl⟩
  | failed | exhausted => cases h

/-- Surroundings that look names up in a registry, read each template to some new tree, and keep a
log of their calls. -/
def Registry.logging (r : Registry) (log : σ → List Call) : Rules σ :=
  { r.reading σ with changes := fun call a b => log b = log a ++ [call] }

theorem Registry.reads_ne_error {r : Registry} {log : σ → List Call} {text : String} {e : Fault} :
    ¬(r.logging log).reads text (.error e) := by
  rintro ⟨t, ht⟩
  cases ht

/-- The same rules, where each call that succeeds is added to a record. -/
def Rules.recorded (ρ : Rules σ) : Rules (σ × List Call) where
  registry := ρ.registry
  reads := ρ.reads
  rewrite := ρ.rewrite
  fresh := ρ.fresh
  changes := fun call a b => b.2 = a.2 ++ [call]

theorem Rules.Describes.recording {ρ : Rules σ} (templates : ρ.registry.OfTemplates)
    {c : Surroundings σ} (describes : ρ.Describes c) : ρ.recorded.Describes c.recording where
  lookup := by
    rintro name ⟨s, a, calls⟩
    obtain ⟨state, _, hrun⟩ := describes.lookup name ⟨s, a⟩
    refine ⟨(state, calls ++ [Call.lookup name]), rfl, ?_⟩
    have h := run_onFirst (c.lookup name) ⟨s, a⟩ (calls ++ [.lookup name])
    rwa [hrun] at h
  parse := by
    rintro name x text hfind body ⟨s, a, calls⟩ sound
    have h := run_onFirst (c.parse text) ⟨s, a⟩ calls
    rcases describes.parse name x text hfind body ⟨s, a⟩ sound with
      ⟨tree, w', hrun, extends', hnew, held, hread, _⟩ | ⟨e, w', hrun, extends', hread⟩
    · rw [hrun] at h
      exact Or.inl ⟨tree, ⟨w'.store, (w'.state, calls ++ [Call.parse text (w'.store.cells tree)])⟩,
        run_bind_of_done h, extends', hnew, held, hread, rfl⟩
    · rw [hrun] at h
      exact Or.inr ⟨e, ⟨w'.store, (w'.state, calls)⟩, run_bind_of_failed h, extends', hread⟩
  handle := by
    intro name x h hfind body
    obtain ⟨text, htext⟩ := templates name x hfind
    rw [htext] at body
    cases body

theorem Surroundings.recording_describes {r : Registry} (templates : r.OfTemplates)
    {c : Surroundings σ} (describes : (r.reading σ).Describes c) :
    (r.logging Prod.snd).Describes c.recording :=
  Rules.Describes.recording templates describes

end SnippetTree
