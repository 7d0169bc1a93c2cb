import SnippetTree.Proofs.Handing
import SnippetTree.Proofs.Survivors

namespace SnippetTree

open Cell

variable {σ : Type}

namespace Account

variable {A : Account σ} {ρ : Rules σ} {c : Nat → Surroundings σ} {n tree p last : NodeId}
  {us cs : List (Outline Cell)} {w w' : World σ}

/-- The account says of each kind of node what comes of it, from what comes of the trees of templates
and of what is below the node. -/
structure Covers (A : Account σ) (ρ : Rules σ) (c : Nat → Surroundings σ) : Prop where
  keep : ∀ {G a cs cs' w w₁ w' out}, ρ.registry.due? G a.element = none →
    ρ.Passes (Event.ofCell a) w w₁ → w.store.Rests w₁.store → A.yields G cs cs' w₁ w' out →
    A.yields G [.node a cs] [.node a cs'] w w' out
  unread : ∀ {G a cs x text e w w₁ w₂}, ρ.registry.due? G a.element = some x →
    x.body = .template text → w₁.store.Sound → ρ.Passes (Event.ofCell a) w w₁ →
    w.store.Rests w₁.store → Ends (fun l => (c l.steps).parse text) w₁ (.failed e, w₂) →
    ρ.reads text (.error e) → A.yields G [.node a cs] [.node a cs] w w₂
      (.failed (.because (.unparsable text e.message a.element.name) e))
  lifts : ∀ {G a cs x text tree us p before after w w₁ w₂}, ρ.registry.due? G a.element = some x →
    x.body = .template text → w.store.Stands a cs p before after → w₁.store.Sound →
    w.store.Rests w₁.store → Ends (fun l => (c l.steps).parse text) w₁ (.done tree, w₂) →
    Grown w w₂ tree us →
    ρ.reads text (.ok (.node (w₂.store.element tree) (us.map (Outline.map Cell.element)))) →
    ρ.Passes (Event.ofCell a ++
      [.parse (G.insert x) text (.node ⟨tree, w₂.store.element tree⟩ us)]) w w₂ →
    A.Lifts G a cs x tree p us w w₂

theorem Covers.follows (h : A.Covers ρ c) (templates : ρ.registry.OfTemplates)
    (depicts : ρ.Depicts c) : A.Follows ρ.registry c := by
  intro G g w a cs p before after walksT walks ready stands
  cases due : ρ.registry.due? G a.element with
  | none =>
    exact depicts.meets_keep ready stands due fun _ _ _ _ passes rests yields =>
      h.keep due passes rests yields
  | some x =>
    obtain ⟨text, body⟩ := templates.body due
    refine Or.inr (depicts.reaches_replace (walksT x a.element due) walks ready stands due body
      (fun w₁ w₂ tree us sound rests parse grown read passes => ?_)
      fun w₁ w₂ e sound passes rests parse read => h.unread due body sound passes rests parse read)
    exact h.lifts due body stands sound rests parse grown read passes

theorem Concludes.supplants (h : Concludes n tree p last us cs w w') :
    w.store.Supplants w'.store n last tree p := by
  refine Script.supplants_of_run h.sound h.held h.parent ?_ h.run
  rintro rfl
  exact h.sound.linked.acyclic p (.single h.parent)

theorem Concludes.eq_nil (h : Concludes n tree p last us cs w w') (out : tree ∉ ids us)
    (same : last = tree) : us = [] := by
  have hleaf := h.leaf
  rw [same] at hleaf
  cases hus : ids us with
  | nil => exact eq_nil_of_ids hus
  | cons m ms =>
    rw [hus, List.getLast?_cons_cons, ← hus] at hleaf
    exact absurd (List.mem_of_getLast? hleaf) out

end Account

end SnippetTree
