import SnippetTree.Proofs.Intact
import SnippetTree.Proofs.Obeying

namespace SnippetTree

namespace Script

variable {σ α β ι : Type} {R : Region} {s t : Store} {w : World σ} {n : NodeId}
  {P : α → Prop} {Q : β → Prop}

theorem ObeysFrom.unrefused {E : Store → Edit → Prop} {p : Script σ Empty α} (h : p.ObeysFrom E w) :
    p.ObeysFrom (fun s e => e.refusal? s = none ∧ E s e) w := by
  induction p generalizing w with
  | done | fail | exhausted => trivial
  | look next ih => exact ih w.store h
  | edit e next ih =>
    simp only [ObeysFrom] at h ⊢
    cases ok : e.refusal? w.store with
    | some fault =>
      rw [ok] at h
      exact ih _ h
    | none =>
      rw [ok] at h
      exact ⟨⟨rfl, h.1⟩, ih _ h.2⟩
  | host change next ih => exact ih w.state h
  | ask r _ => exact r.elim

/-- Wherever it starts with the region intact, the script makes only edits outside of the region,
and what it returns is as `P` says. -/
def Avoids (R : Region) (s : Store) (p : Script σ Empty α) (P : α → Prop) : Prop :=
  ∀ w : World σ, R.Intact s w.store →
    p.ObeysFrom (fun _ e => e.Outside R) w ∧ ∀ a w', p.run w = (.done a, w') → P a

theorem Avoids.stores {p : Script σ Empty α} (h : p.Avoids R s P) (start : R.Intact s w.store) :
    ∀ t ∈ p.stores w, R.Intact s t :=
  (h w start).1.unrefused.stores (fun _ _ intact step => intact.apply step.1 step.2) start

theorem Avoids.intact {p : Script σ Empty α} (h : p.Avoids R s P) (start : R.Intact s w.store) :
    R.Intact s (p.run w).2.store :=
  h.stores start _ (run_store_mem_stores p w)

theorem Avoids.bind {p : Script σ Empty α} {f : α → Script σ Empty β} (h : p.Avoids R s P)
    (rest : ∀ a, P a → (f a).Avoids R s Q) : (p >>= f).Avoids R s Q := by
  intro w start
  obtain ⟨obeys, result⟩ := h w start
  have after : ∀ a w', p.run w = (.done a, w') → R.Intact s w'.store := fun a w' hrun => by
    have intact := h.intact start
    rwa [hrun] at intact
  refine ⟨obeys.bind fun a w' hrun => (rest a (result a w' hrun) w' (after a w' hrun)).1, ?_⟩
  intro b w' hrun
  obtain ⟨a, w₁, hp, hf⟩ := exists_run_of_bind hrun
  exact (rest a (result a w₁ hp) w₁ (after a w₁ hp)).2 b w' hf

theorem Avoids.attempt {p : Script σ Empty α} (h : p.Avoids R s P) :
    p.attempt.Avoids R s fun out => ∀ a, out = .ok a → P a := by
  refine fun w start => ⟨(h w start).1.attempt, ?_⟩
  rintro _ w' hrun a rfl
  rw [run_attempt] at hrun
  rcases hp : p.run w with ⟨out, w₁⟩
  rw [hp] at hrun
  cases out with
  | done b =>
    cases hrun
    exact (h w start).2 a _ hp
  | failed fault => cases hrun
  | exhausted => cases hrun

theorem Avoids.ensuring {p : Script σ Empty α} (h : p.Avoids R s P) {last : Edit}
    (outside : last.Outside R) : (p.ensuring last).Avoids R s P := by
  refine fun w start => ⟨(h w start).1.ensuring fun _ => outside, fun a w' hrun => ?_⟩
  rw [run_ensuring] at hrun
  have done : (p.run w).1 = .done a := congrArg Prod.fst hrun
  exact (h w start).2 a _ (Prod.ext done rfl)

end Script

end SnippetTree
