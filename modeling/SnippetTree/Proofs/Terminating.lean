import SnippetTree.Proofs.Guarded
import SnippetTree.Proofs.Resolving

namespace SnippetTree

open Cell Script Mark

variable {σ : Type} {c : Surroundings σ} {g : GuardId} {steps : Nat}

/-- Surroundings that look names up in a registry and read a template to some new tree or fail, as
they like at each time. Handlers, where there are any, leave their nodes as they are. -/
def Registry.attempting (r : Registry) (σ : Type) : Rules σ where
  registry := r
  reads := fun _ _ => True
  rewrite := fun _ e => e
  fresh := fun _ => True
  changes := fun _ _ _ => True

/-- The registered snippets with templates, once for each name. -/
def Registry.templates (r : Registry) : List Snippet :=
  r.snippets.values.filter fun x => match x.body with
    | .template _ => true
    | .handler _ => false

theorem Registry.mem_templates {r : Registry} {x : Snippet} :
    x ∈ r.templates ↔ x ∈ r.snippets.values ∧ ∃ text, x.body = .template text := by
  rw [templates, List.mem_filter]
  refine and_congr_right fun _ => ?_
  cases x.body <;> simp

namespace Resolution

/-- All walks that begin also end, and those under way at a moment are over the templates of
different snippets, of which `P` holds. -/
def Chained (P : Snippet → Prop) (es : List (Entry Mark)) : Prop :=
  (∀ xs, es.foldl Mark.track xs = xs) ∧ ∀ past future, es = past ++ future →
    ∃ ys, (∀ xs, past.foldl Mark.track xs = ys ++ xs) ∧ ys.Nodup ∧ ∀ y ∈ ys, P y

variable {P : Snippet → Prop}

theorem chained_composes (P : Snippet → Prop) :
    Composes fun (_ : Store) (es : List (Entry Mark)) => Chained P es where
  nil := by
    refine fun _ => ⟨fun _ => rfl, fun past future cut => ?_⟩
    obtain ⟨rfl, rfl⟩ := List.append_eq_nil_iff.mp cut.symm
    exact ⟨[], fun _ => rfl, .nil, nofun⟩
  append := by
    intro _ es es' h h'
    refine ⟨fun xs => by rw [List.foldl_append, h.1, h'.1], fun past future cut => ?_⟩
    rcases List.append_eq_append_iff.mp cut with ⟨mid, rfl, hes'⟩ | ⟨mid, hes, -⟩
    · obtain ⟨ys, follows, rest⟩ := h'.2 mid future hes'
      exact ⟨ys, fun xs => by rw [List.foldl_append, h.1, follows], rest⟩
    · exact h.2 past mid hes

theorem chained_edit (P : Snippet → Prop) (e : Edit) : Chained P [.edit e] := by
  refine ⟨fun _ => rfl, fun past future cut => ⟨[], fun xs => ?_, .nil, nofun⟩⟩
  rcases List.singleton_eq_append_iff.mp cut with ⟨rfl, -⟩ | ⟨rfl, -⟩ <;> rfl

theorem Orderly.chained {g : GuardId} {s : Store} {es : List (Entry Mark)} (h : Orderly P g s es)
    (held : s.HasGuard g) : Chained P es := by
  refine ⟨h.track, fun past future cut => ?_⟩
  obtain ⟨⟨ys, moment⟩, -⟩ := h.moment held cut
  exact ⟨ys, moment.follows, moment.nodup, fun y hy => (moment.allowed y hy).1⟩

theorem chained_belowMarked (spares : ∀ g, c.Spares g) (limits : Limits) (root : NodeId) :
    (belowMarked (pure c) limits root).Tells fun _ es => Chained c.Offers es := by
  have composes := chained_composes c.Offers
  have visits : ∀ n, (newGuard >>= fun g => underMarked c g limits.steps limits.depth n).Tells
      fun _ es => Chained c.Offers es := by
    intro n w
    -- each node has a guard of its own, which is new, so that no chain goes on from one to the next
    refine composes.bind_of_run (chained_edit _ .addGuard) ?_
    rintro g w' ⟨⟩
    have held : (Edit.addGuard.apply w.store).HasGuard w.store.freshGuard := by
      simp [Store.HasGuard, Store.freshGuard, Edit.apply]
    exact Orderly.chained (orders_underMarked (spares _) _ _ n _ held rfl) held
  exact composes.walk visits limits.steps root

end Resolution

theorem Rules.Describes.mem_templates_of_offers {ρ : Rules σ} (describes : ρ.Describes c) {x : Snippet}
    (h : c.Offers x) : x ∈ ρ.registry.templates := by
  obtain ⟨⟨name, w, w', hrun⟩, text, body⟩ := h
  obtain ⟨state, _, hlookup⟩ := describes.lookup name w
  rw [hlookup] at hrun
  have hanswer := Outcome.done.inj (congrArg Prod.fst hrun)
  obtain ⟨y, hy, he⟩ := Option.map_eq_some_iff.mp hanswer
  cases he
  exact Registry.mem_templates.mpr ⟨Registry.mem_values_of_find? hy, text, body⟩

/-- A resolution ends, successfully or not, however its registry refers to itself; and at each
moment of it the walks over templates that are within each other are over the templates of different
registered snippets. The nodes below a replaced node are resolved once its template's walk is over,
so the depth of the tree adds nothing to such a chain. -/
theorem resolveBelow_terminates (r : Registry) (c : Surroundings σ)
    (describes : (r.attempting σ).Describes c) (spares : ∀ g, c.Spares g) (w : World σ)
    (sound : w.store.Sound) (root : NodeId) :
    (∃ k out w', out ≠ .exhausted ∧ ∀ limits : Limits, k ≤ limits.depth → k ≤ limits.steps →
        (resolveBelow (pure c) limits root).run w = (out, w')) ∧
      ∀ limits, (Resolution.belowMarked (pure c) limits root).granted =
          resolveBelow (pure c) limits root ∧
        ∀ past future, (Resolution.belowMarked (pure c) limits root).transcript w = past ++ future →
          (Mark.underway past).Nodup ∧ Mark.underway past ⊆ r.templates ∧
            (Mark.underway past).length ≤ r.templates.dedup.length := by
  refine ⟨?_, fun limits => ⟨Resolution.granted_belowMarked _ limits root, fun past future cut => ?_⟩⟩
  · obtain ⟨ts, hts, shown⟩ := sound.linked.exists_shows (w.store.children root)
    obtain ⟨out, w', _, ⟨k, hk⟩, _, reached⟩ :=
      Rules.resolveBelow_reaches describes ⟨sound, fun _ _ => trivial⟩ shown hts.symm
    exact ⟨k, out, w', reached.ended, hk⟩
  · obtain ⟨ys, follows, nodup, offered⟩ :=
      (Resolution.chained_belowMarked spares limits root w).2 past future cut
    have hys : Mark.underway past = ys := (follows []).trans (List.append_nil ys)
    have hsub : ys ⊆ r.templates := fun x hx =>
      describes.mem_templates_of_offers (offered x hx)
    rw [hys]
    exact ⟨nodup, hsub, (nodup.subperm fun x hx => List.mem_dedup.mpr (hsub hx)).length_le⟩

/-- Snippets whose templates mention each other; `z` is a further name of the first one. -/
def Registry.crossing : Registry :=
  ⟨((Keyed.insert ∅ "x" { serial := 0, body := .template "y+z" }).insert "z"
    { serial := 0, body := .template "y+z" }).insert "y" { serial := 1, body := .template "x" }⟩

/-- The tree `x>x` is resolved to the end, with at most two templates walked within one another. -/
theorem resolveBelow_terminates_crossing :
    ∃ (c : Surroundings Unit) (w : World Unit) (root : NodeId),
      (Registry.crossing.attempting Unit).Describes c ∧ (∀ g, c.Spares g) ∧ w.store.Sound ∧
      (w.store.document root).children =
        [.node { name := some "x" } [.node { name := some "x" } []]] ∧
      (∃ k out w', out ≠ .exhausted ∧ ∀ limits : Limits, k ≤ limits.depth → k ≤ limits.steps →
        (resolveBelow (pure c) limits root).run w = (out, w')) ∧
      ∀ limits past future,
        (Resolution.belowMarked (pure c) limits root).transcript w = past ++ future →
          (Mark.underway past).length ≤ 2 := by
  let trees : String → Outline Element := fun text =>
    if text = "x" then .node {} [.node { name := some "x" } []]
    else .node {} [.node { name := some "y" } [], .node { name := some "z" } []]
  obtain ⟨w, root, sound, _, hdocument⟩ := exists_world
    (.node {} [.node { name := some "x" } [.node { name := some "x" } []]]) ()
  have describes : (Registry.crossing.attempting Unit).Describes
      (.planting Registry.crossing fun text => .ok (trees text)) :=
    Surroundings.planting_describes (fun _ => trivial) (fun _ _ => rfl) fun _ _ => trivial
  have spares : ∀ g, Surroundings.Spares (σ := Unit) (.planting Registry.crossing fun text =>
      .ok (trees text)) g := Surroundings.planting_spares _ _
  obtain ⟨ends, chains⟩ :=
    resolveBelow_terminates Registry.crossing _ describes spares w sound root
  refine ⟨_, w, root, describes, spares, sound, by rw [hdocument]; rfl, ends, ?_⟩
  intro limits past future cut
  exact ((chains limits).2 past future cut).2.2

end SnippetTree
