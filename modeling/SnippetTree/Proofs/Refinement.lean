import SnippetTree.Proofs.Planting
import SnippetTree.Proofs.Resolving

namespace SnippetTree

open Cell

variable {σ : Type}

/-- Surroundings that do what a plan says: no reading of a template fails, and its tree shows the
same each time. -/
def Plan.rules (plan : Plan) (σ : Type) : Rules σ where
  registry := plan.registry
  reads := fun text r => r = .ok (plan.tree text)
  rewrite := plan.rewrite
  fresh := fun _ => True
  changes := fun _ _ _ => True

theorem map_giveAll (e : Element) (ts : List (Outline Cell)) :
    (giveAll e ts).map (Outline.map Cell.element) =
      (ts.map (Outline.map Cell.element)).map (Outline.relabel (·.merge e)) := by
  induction ts with
  | nil => rfl
  | cons t ts ih =>
    obtain ⟨a, cs⟩ := t
    rw [giveAll_cons, List.map_cons, ih]
    simp [Outline.relabel, give]

namespace Plan

variable {plan : Plan} {ρ : Rules σ} {g : Guard} {ts ts' : List (Outline Cell)}

/-- Whatever the rules let templates be read to is what the plan says. -/
structure Fits (plan : Plan) (ρ : Rules σ) : Prop where
  registry : ρ.registry = plan.registry
  tree : ∀ text t, ρ.reads text (.ok t) → plan.tree text = t
  rewrite : ρ.rewrite = plan.rewrite

theorem fits_rules : plan.Fits (plan.rules σ) :=
  ⟨rfl, fun _ _ h => (Except.ok.inj h).symm, rfl⟩

/-- What the rules make of a forest shows the expansion of what it showed. -/
theorem map_of_settles {es : List Event} (fits : plan.Fits ρ) (h : ρ.Settles g ts es ts') :
    ts'.map (Outline.map Cell.element) = plan.expand g (ts.map (Outline.map Cell.element)) := by
  induction h with
  | nil => simp
  | keep due _ _ ihc iht =>
    rw [fits.registry] at due
    simp only [List.map_cons, Outline.map_node]
    rw [expand_keep due, ihc, iht]
  | handle due body _ _ ihc iht =>
    rw [fits.registry] at due
    simp only [List.map_cons, Outline.map_node]
    rw [expand_handle due body, ihc, iht, fits.rewrite]
  | @replace g a cs cs' ts ts' us us' _ _ _ s text top due body read _ _ _ _ ihu ihc iht =>
    rw [fits.registry] at due
    have htree : plan.tree text = .node top.element (us.map (Outline.map Cell.element)) :=
      fits.tree _ _ read
    simp only [List.map_cons, Outline.map_node, List.map_append]
    rw [expand_replace due body, map_giveAll, Outline.map_graft, ihu, ihc, iht, htree]
    rfl

end Plan

/-- Given enough room, the resolution of a tree succeeds, and leaves below the root the expansion of
the forest that was there: the same names, data, order and nesting. -/
theorem resolveBelow_expands (plan : Plan) (c : Surroundings σ)
    (describes : (plan.rules σ).Describes c) (w : World σ) (sound : w.store.Sound) (root : NodeId) :
    ∃ k w', (∀ limits : Limits, k ≤ limits.depth → k ≤ limits.steps →
        (resolveBelow (pure c) limits root).run w = (.done (), w')) ∧
      (w'.store.document root).children = plan.expand {} (w.store.document root).children := by
  obtain ⟨ts, hts, shown⟩ := sound.linked.exists_shows (w.store.children root)
  obtain ⟨out, w', ts', ⟨k, hk⟩, sound', reached⟩ :=
    Rules.resolveBelow_reaches describes ⟨sound, fun _ _ => trivial⟩ shown hts.symm
  have hdocument := shown.document_eq sound.linked hts.symm
  have hdocument' := reached.shown.document_eq sound'.linked (by simpa using reached.children)
  cases reached.yields with
  | done settles _ =>
    refine ⟨k, w', hk, ?_⟩
    rw [hdocument, hdocument']
    exact Plan.map_of_settles Plan.fits_rules settles
  | failed stops => exact absurd stops (Rules.not_stops_of_reads fun _ _ h => by cases h)

/-- A snippet `x` whose template `a>x` mentions it. -/
def Plan.selfReferring : Plan where
  registry := ⟨Keyed.insert ∅ "x" { serial := 0, body := .template "a>x" }⟩
  tree := fun _ => .node {} [.node { name := some "a" } [.node { name := some "x" } []]]
  rewrite := fun _ e => e

/-- The node `x` with text and a child `b` becomes `a>x>b`, with the text at `a`. -/
theorem resolveBelow_expands_selfReferring :
    ∃ (c : Surroundings Unit) (w : World Unit) (root : NodeId),
      (Plan.selfReferring.rules Unit).Describes c ∧ w.store.Sound ∧
      (w.store.document root).children =
        [.node { name := some "x", value := some "v" } [.node { name := some "b" } []]] ∧
      ∃ k w', (∀ limits : Limits, k ≤ limits.depth → k ≤ limits.steps →
          (resolveBelow (pure c) limits root).run w = (.done (), w')) ∧
        (w'.store.document root).children =
          [.node { name := some "a", value := some "v" }
            [.node { name := some "x" } [.node { name := some "b" } []]]] := by
  obtain ⟨w, root, sound, _, hdocument⟩ := exists_world
    (.node {} [.node { name := some "x", value := some "v" } [.node { name := some "b" } []]]) ()
  have describes : (Plan.selfReferring.rules Unit).Describes
      (.planting Plan.selfReferring.registry fun text => .ok (Plan.selfReferring.tree text)) :=
    Surroundings.planting_describes (fun text => rfl) (fun _ _ => rfl) fun _ _ => trivial
  obtain ⟨k, w', hrun, hchildren⟩ := resolveBelow_expands _ _ describes w sound root
  refine ⟨_, w, root, describes, sound, by rw [hdocument]; rfl, k, w', hrun, ?_⟩
  rw [hchildren, hdocument]
  let x : Snippet := { serial := 0, body := .template "a>x" }
  have hx : Plan.selfReferring.registry.due? {} { name := some "x", value := some "v" } = some x := by
    decide
  have hb : Plan.selfReferring.registry.due? {} { name := some "b" } = none := by decide
  have ha : Plan.selfReferring.registry.due? ⟨[x]⟩ { name := some "a" } = none := by decide
  have hself : Plan.selfReferring.registry.due? ⟨[x]⟩ { name := some "x" } = none := by decide
  change Plan.selfReferring.expand {} [.node { name := some "x", value := some "v" }
    [.node { name := some "b" } []]] = _
  rw [Plan.expand_replace hx rfl, Plan.expand_keep hb]
  change (Outline.graft (Plan.selfReferring.expand ⟨[x]⟩ [.node { name := some "a" }
    [.node { name := some "x" } []]]) _).map _ ++ _ = _
  rw [Plan.expand_keep ha, Plan.expand_keep hself]
  simp only [Plan.expand_nil, Outline.graft, List.map_cons, List.map_nil, List.append_nil,
    Outline.relabel]
  rfl

end SnippetTree
