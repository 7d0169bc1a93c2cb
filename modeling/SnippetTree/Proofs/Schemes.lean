import SnippetTree.Proofs.Refinement
import SnippetTree.Proofs.Survivors

namespace SnippetTree

open Cell

variable {σ : Type}

/-- Snippets with a reader of templates that keeps a state. -/
structure Scheme (σ : Type) where
  registry : Registry
  read : String → σ → Outline Element × σ

namespace Scheme

variable {S : Scheme σ} {g : Guard} {e : Element} {cs ts us : List (Outline Element)} {s : Snippet}
  {a : σ}

/-- What becomes of a forest while the snippets of a guard are under expansion. A node with a template
to follow is replaced: first the template is read, then its tree grows, then what is below the node,
and then the rest of the forest. Handlers leave their nodes as they are. -/
def grow (S : Scheme σ) (g : Guard) : List (Outline Element) → σ → List (Outline Element) × σ
  | [], a => ([], a)
  | .node e cs :: ts, a =>
    let kept :=
      let own := grow S g cs a
      let rest := grow S g ts own.2
      (.node e own.1 :: rest.1, rest.2)
    match _due : S.registry.due? g e with
    | none => kept
    | some s =>
      match s.body with
      | .handler _ => kept
      | .template text =>
        let tree := S.read text a
        let inner := grow S (g.insert s) tree.1.children tree.2
        let own := grow S g cs inner.2
        let rest := grow S g ts own.2
        ((Outline.graft inner.1 own.1).map (Outline.relabel (·.merge e)) ++ rest.1, rest.2)
termination_by ts => ((S.registry.idle g).length, sizeOf ts)
decreasing_by
  · exact Prod.Lex.right _ (Plan.sizeOf_below_lt e cs ts)
  · exact Prod.Lex.right _ (Plan.sizeOf_beside_lt (.node e cs) ts)
  · exact Prod.Lex.left _ _ (Registry.length_idle_insert _due)
  · exact Prod.Lex.right _ (Plan.sizeOf_below_lt e cs ts)
  · exact Prod.Lex.right _ (Plan.sizeOf_beside_lt (.node e cs) ts)

@[simp] theorem grow_nil (a : σ) : S.grow g [] a = ([], a) := by
  rw [grow]

theorem grow_keep (due : S.registry.due? g e = none) (a : σ) : S.grow g (.node e cs :: ts) a =
    (.node e (S.grow g cs a).1 :: (S.grow g ts (S.grow g cs a).2).1,
      (S.grow g ts (S.grow g cs a).2).2) := by
  rw [grow]
  split
  next => rfl
  next s hs => cases due.symm.trans hs

theorem grow_replace {text : String} (due : S.registry.due? g e = some s)
    (body : s.body = .template text) (a : σ) : S.grow g (.node e cs :: ts) a =
      let inner := S.grow (g.insert s) (S.read text a).1.children (S.read text a).2
      let own := S.grow g cs inner.2
      let rest := S.grow g ts own.2
      ((Outline.graft inner.1 own.1).map (Outline.relabel (·.merge e)) ++ rest.1, rest.2) := by
  rw [grow]
  split
  next hs => cases due.symm.trans hs
  next t ht =>
    cases Option.some.inj (due.symm.trans ht)
    rw [body]

theorem grow_append (templates : S.registry.OfTemplates) (ts us : List (Outline Element)) (a : σ) :
    S.grow g (ts ++ us) a = ((S.grow g ts a).1 ++ (S.grow g us (S.grow g ts a).2).1,
      (S.grow g us (S.grow g ts a).2).2) := by
  induction ts generalizing a with
  | nil => simp
  | cons t ts ih =>
    obtain ⟨e, cs⟩ := t
    rw [List.cons_append]
    cases due : S.registry.due? g e with
    | none => simp only [grow_keep due, ih, List.cons_append]
    | some s =>
      obtain ⟨text, body⟩ := templates.body due
      simp only [grow_replace due body, ih, List.append_assoc]

/-- Surroundings that read templates as a scheme does. -/
def rules (S : Scheme σ) : Rules σ where
  registry := S.registry
  reads := fun text x => ∃ a, x = .ok (S.read text a).1
  rewrite := fun _ e => e
  fresh := fun _ => True
  changes := fun call a b =>
    match call with
    | .lookup _ => b = a
    | .parse text tree => S.read text a = (tree.map Cell.element, b)
    | .handle _ => b = a

end Scheme

theorem Registry.OfTemplates.handles {ρ : Rules σ} {c : Nat → Surroundings σ}
    (templates : ρ.registry.OfTemplates) : ρ.Handles c := by
  intro name s h hfind body
  obtain ⟨text, htext⟩ := templates name s hfind
  cases htext.symm.trans body

namespace Rules

variable {ρ : Rules σ} {e : Event} {es es' : List Event} {w w' : World σ}

theorem Passes.of_append (h : ρ.Passes (es ++ es') w w') :
    ∃ w₁, ρ.Passes es w w₁ ∧ ρ.Passes es' w₁ w' := by
  induction es generalizing w with
  | nil => exact ⟨w, .refl w, h⟩
  | cons e es ih =>
    cases h with
    | cons first rest =>
      obtain ⟨w₁, hes, hes'⟩ := ih rest
      exact ⟨w₁, .cons first hes, hes'⟩

theorem Passes.of_one (h : ρ.Passes [e] w w') : ρ.changes e.call w.state w'.state := by
  cases h with
  | cons first rest =>
    cases rest with
    | nil state _ => exact state ▸ first.state

end Rules

namespace Scheme

variable {S : Scheme σ} {c : Nat → Surroundings σ} {g : Guard} {ts ts' : List (Outline Cell)}
  {es : List Event} {w w' : World σ}

theorem not_reads_error (text : String) (e : Fault) : ¬S.rules.reads text (.error e) := by
  rintro ⟨a, ha⟩
  cases ha

theorem read_of_changes {text : String} {top : Cell} {us : List (Outline Cell)} {a b : σ}
    (h : S.rules.changes (.parse text (.node top us)) a b) :
    S.read text a = (.node top.element (us.map (Outline.map Cell.element)), b) := by
  have hread : S.read text a = ((Outline.node top us).map Cell.element, b) := h
  rwa [Outline.map_node] at hread

theorem state_of_ofCell {a : Cell} (h : S.rules.Passes (Event.ofCell a) w w') :
    w'.state = w.state := by
  cases hname : a.element.name with
  | none =>
    rw [Event.ofCell, hname] at h
    cases h with
    | nil state _ => exact state
  | some name =>
    rw [Event.ofCell, hname] at h
    exact h.of_one

theorem grow_eq_self {ts : List (Outline Element)}
    (unmatched : ∀ e ∈ Outline.labels ts, S.registry.matched e = false) (a : σ) :
    S.grow g ts a = (ts, a) := by
  induction ts using Outline.forest_induction generalizing a with
  | nil => rw [grow_nil]
  | cons e cs ts ihc iht =>
    have due : S.registry.due? g e = none := Registry.due?_of_unmatched (unmatched e (by simp))
    rw [grow_keep due, ihc (fun x hx => unmatched x (by simp [hx])),
      iht fun x hx => unmatched x (by simp [hx])]

/-- What the rules make of a forest is what the forest grows to. -/
theorem grow_of_settles (templates : S.registry.OfTemplates) (h : S.rules.Settles g ts es ts')
    (passes : S.rules.Passes es w w') :
    S.grow g (ts.map (Outline.map Cell.element)) w.state =
      (ts'.map (Outline.map Cell.element), w'.state) := by
  induction h generalizing w w' with
  | nil =>
    cases passes with
    | nil state _ => simp [state]
  | keep due _ _ ihc iht =>
    obtain ⟨w₂, passes, hrest⟩ := passes.of_append
    obtain ⟨w₁, hcell, hbelow⟩ := passes.of_append
    rw [List.map_cons, Outline.map_node, grow_keep due, ← state_of_ofCell hcell, ihc hbelow,
      iht hrest, List.map_cons, Outline.map_node]
  | handle due body _ _ _ _ => exact absurd body (templates.not_handler due)
  | @replace g a cs cs' ts ts' us us' _ _ _ s text top due body _ _ _ _ _ ihu ihc iht =>
    obtain ⟨w₄, passes, hrest⟩ := passes.of_append
    obtain ⟨w₃, passes, hbelow⟩ := passes.of_append
    obtain ⟨w₂, passes, hinner⟩ := passes.of_append
    obtain ⟨w₁, hcell, hparse⟩ := passes.of_append
    have hread := read_of_changes hparse.of_one
    rw [List.map_cons, Outline.map_node, grow_replace due body, ← state_of_ofCell hcell, hread]
    simp only [Outline.children, ihu hinner, ihc hbelow, iht hrest]
    rw [List.map_append, map_giveAll, Outline.map_graft]

/-- The resolution of all below a root succeeds, given enough room, and leaves what the forest grows
to. -/
theorem resolveBelow_reaches (templates : S.registry.OfTemplates) (depicts : S.rules.Depicts c)
    (sound : w.store.Sound) (root : NodeId) :
    ∃ w' ts', Ends (fun l => resolveBelow (pure (c l.steps)) l root) w (.done (), w') ∧
      w'.store.Sound ∧
      S.rules.account.Reaches {} root [] [] (w.store.forest root) w w' ts' (.done ()) ∧
      S.grow {} (w.store.document root).children w.state =
        ((w'.store.document root).children, w'.state) := by
  have linked := sound.linked
  have children : w.store.children root = roots (w.store.forest root) := linked.children_eq_forest
  obtain ⟨out, w', ts', hends, sound', reached⟩ :=
    (Rules.follows depicts templates.handles).resolveBelow_reaches ⟨sound, fun _ _ => trivial⟩
      linked.shows_forest children
  have hforest : w'.store.forest root = ts' :=
    reached.shown.forest_eq sound'.linked (by simpa using reached.children)
  have hyields := reached.yields
  cases hyields with
  | done settles passes =>
    refine ⟨w', ts', hends, sound', reached, ?_⟩
    rw [linked.children_document, sound'.linked.children_document, hforest]
    exact grow_of_settles templates settles passes
  | failed stops => exact absurd stops (Rules.not_stops_of_reads not_reads_error)

/-- Surroundings that plant what the reader of a scheme gives. -/
def surroundings (S : Scheme σ) : Surroundings σ where
  lookup name := pure ((S.registry.find? name).map .snippet)
  parse text := .host (fun a => (S.read text a).2) fun a => Script.plant (S.read text a).1
  handle _ _ := pure ()

theorem surroundings_describes (S : Scheme σ)
    (planted : ∀ text a, (S.read text a).1.map Element.planted = (S.read text a).1) :
    S.rules.Describes S.surroundings where
  lookup := fun name w => ⟨w.state, rfl, rfl⟩
  parse := by
    intro name s text _ _ w sound
    let w₁ : World σ := { w with state := (S.read text w.state).2 }
    have sound₁ : w₁.store.Sound := sound
    obtain ⟨n, s', hrun, hext, hn, hmem, hdocument⟩ :=
      Store.run_plant sound₁ (S.read text w.state).1
    rw [planted] at hdocument
    have sound' : s'.Sound := Script.sound_of_run sound₁ hrun
    refine Or.inl ⟨n, { w₁ with store := s' }, hrun, hext, hn, hmem, ⟨w.state, ?_⟩, ?_⟩
    · rw [hdocument]
    · show S.read text w.state = ((s'.cells n).map Cell.element, (S.read text w.state).2)
      rw [sound'.linked.map_element_cells, hdocument]
  handle := by
    intro name s h _ _ w n _ hn
    exact ⟨w, fun resolve => rfl, .refl _ n, rfl⟩

end Scheme

end SnippetTree
