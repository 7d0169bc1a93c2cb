import SnippetTree.Proofs.Recording
import SnippetTree.Proofs.Refinement

namespace SnippetTree

open Cell

variable {σ : Type}

def Call.tree? : Call → Option (Outline Cell)
  | parse _ tree => some tree
  | _ => none

namespace Event

def tree? (e : Event) : Option (Outline Cell) := e.call.tree?

def nodes (es : List Event) : List NodeId :=
  es.filterMap fun
    | lookup n _ => some n
    | _ => none

/-- What is below the roots of the trees that were read. -/
def brought (es : List Event) : List (Outline Cell) := (es.filterMap tree?).flatMap Outline.children

end Event

/-- The events of the resolution of a forest while some snippets are under expansion. For each node
in order there is its lookup; if that finds a template not under expansion, the reading of it and the
events of its tree, with the snippet under expansion; and then the events of what is below the node. -/
inductive Registry.Traces (r : Registry) : Guard → List (Outline Cell) → List Event → Prop
  | nil {g : Guard} : Traces r g [] []
  | keep {g : Guard} {a : Cell} {cs ts : List (Outline Cell)} {below rest : List Event}
      (due : r.due? g a.element = none) (own : Traces r g cs below) (others : Traces r g ts rest) :
      Traces r g (.node a cs :: ts) (Event.ofCell a ++ below ++ rest)
  | expand {g : Guard} {a : Cell} {cs ts us : List (Outline Cell)} {inner below rest : List Event}
      {s : Snippet} {text : String} {top : Cell} (due : r.due? g a.element = some s)
      (body : s.body = .template text) (template : Traces r (g.insert s) us inner)
      (own : Traces r g cs below) (others : Traces r g ts rest) :
      Traces r g (.node a cs :: ts)
        (Event.ofCell a ++ [.parse (g.insert s) text (.node top us)] ++ inner ++ below ++ rest)

/-- The nodes of a forest that have a name. -/
def Cell.named (ts : List (Outline Cell)) : List NodeId :=
  ((Outline.labels ts).filter (·.element.name.isSome)).map Cell.id

namespace Event

variable {es es' : List Event} {a : Cell} {cs ts : List (Outline Cell)}

@[simp] theorem nodes_append : nodes (es ++ es') = nodes es ++ nodes es' := List.filterMap_append

@[simp] theorem nodes_parse {g : Guard} {text : String} {tree : Outline Cell} :
    nodes [parse g text tree] = [] := rfl

@[simp] theorem brought_append : brought (es ++ es') = brought es ++ brought es' := by
  simp [brought]

@[simp] theorem brought_parse {g : Guard} {text : String} {top : Cell} :
    brought [parse g text (.node top ts)] = ts := List.append_nil ts

@[simp] theorem filterMap_tree?_ofCell : (ofCell a).filterMap tree? = [] := by
  unfold ofCell
  cases a.element.name <;> rfl

@[simp] theorem brought_ofCell : brought (ofCell a) = [] := by
  rw [brought, filterMap_tree?_ofCell, List.flatMap_nil]

end Event

namespace Cell

variable {a : Cell} {cs ts : List (Outline Cell)}

@[simp] theorem named_append : named (ts ++ cs) = named ts ++ named cs := by
  simp [named, Outline.labels_append]

@[simp] theorem named_cons :
    named (.node a cs :: ts) = Event.nodes (Event.ofCell a) ++ (named cs ++ named ts) := by
  have hself : ([a].filter (·.element.name.isSome)).map Cell.id = Event.nodes (Event.ofCell a) := by
    unfold Event.ofCell
    cases h : a.element.name <;> simp [h, Event.nodes]
  rw [← hself, named, Outline.labels_cons, ← List.singleton_append, List.filter_append,
    List.filter_append, List.map_append, List.map_append]
  rfl

end Cell

namespace Registry.Traces

variable {r : Registry} {g : Guard} {ts : List (Outline Cell)} {es es' : List Event}

theorem unique {xs xs' : List (Outline Cell)} (h : r.Traces g ts es) (h' : r.Traces g ts es')
    (same : es.filterMap Event.tree? ++ xs = es'.filterMap Event.tree? ++ xs') :
    es = es' ∧ xs = xs' := by
  induction h generalizing es' xs xs' with
  | nil =>
    cases h'
    exact ⟨rfl, same⟩
  | keep due _ _ ihc iht =>
    cases h' with
    | keep _ own others =>
      simp only [List.filterMap_append, Event.filterMap_tree?_ofCell, List.nil_append,
        List.append_assoc] at same
      obtain ⟨rfl, hrest⟩ := ihc own same
      obtain ⟨rfl, rfl⟩ := iht others hrest
      exact ⟨rfl, rfl⟩
    | expand due' => rw [due] at due'; cases due'
  | expand due body _ _ _ ihu ihc iht =>
    cases h' with
    | keep due' => rw [due] at due'; cases due'
    | expand due' body' template own others =>
      obtain rfl := Option.some.inj (due.symm.trans due')
      obtain rfl := Snippet.Body.template.inj (body.symm.trans body')
      simp only [List.filterMap_append, List.filterMap_cons, Event.filterMap_tree?_ofCell,
        List.nil_append, List.append_assoc, List.cons_append, Event.tree?, Event.call,
        Call.tree?] at same
      obtain ⟨htree, hinner⟩ := List.cons.inj same
      obtain ⟨rfl, rfl⟩ := Outline.node.inj htree
      obtain ⟨rfl, hbelow⟩ := ihu template hinner
      obtain ⟨rfl, hrest⟩ := ihc own hbelow
      obtain ⟨rfl, rfl⟩ := iht others hrest
      exact ⟨rfl, rfl⟩

theorem nodes_perm (h : r.Traces g ts es) :
    (Event.nodes es).Perm (named (ts ++ Event.brought es)) := by
  rw [List.perm_iff_count]
  intro n
  induction h with
  | nil => rfl
  | keep _ _ _ ihc iht =>
    simp only [named_append, named_cons, Event.nodes_append, Event.brought_append,
      Event.brought_ofCell, List.nil_append, List.count_append] at ihc iht ⊢
    omega
  | expand _ _ _ _ _ ihu ihc iht =>
    simp only [named_append, named_cons, Event.nodes_append, Event.brought_append,
      Event.brought_ofCell, Event.nodes_parse, Event.brought_parse, List.nil_append,
      List.append_nil, List.count_append] at ihu ihc iht ⊢
    omega

theorem of_settles {ρ : Rules σ} {ts' : List (Outline Cell)} (templates : ρ.registry.OfTemplates)
    (h : ρ.Settles g ts es ts') : ρ.registry.Traces g ts es := by
  induction h with
  | nil => exact .nil
  | keep due _ _ ihc iht => exact .keep due ihc iht
  | handle due body => exact absurd body (templates.not_handler due)
  | replace due body _ _ _ _ _ ihu ihc iht => exact .expand due body ihu ihc iht

end Registry.Traces

namespace Rules.Passes

variable {ρ : Rules σ} {es : List Event} {w w' : World σ}

theorem born (h : ρ.Passes es w w') :
    (ids (es.filterMap Event.tree?)).Nodup ∧ ∀ m ∈ ids (es.filterMap Event.tree?), m ∉ w.store := by
  induction h with
  | nil => simp
  | @cons e es _ _ _ first _ ih =>
    obtain ⟨hnodup, hnew⟩ := ih
    have hlater : ∀ m ∈ ids (es.filterMap Event.tree?), m ∉ _ := fun m hm hm' =>
      hnew m hm (first.held m hm')
    cases e with
    | lookup n name => exact ⟨hnodup, hlater⟩
    | handle n h => exact ⟨hnodup, hlater⟩
    | parse active text tree =>
      obtain ⟨hown, hborn⟩ := first.born text tree rfl
      have hids : ids ((Event.parse active text tree :: es).filterMap Event.tree?) =
          ids [tree] ++ ids (es.filterMap Event.tree?) := ids_append [tree] _
      rw [hids, List.nodup_append]
      refine ⟨⟨hown, hnodup, ?_⟩, fun m hm => ?_⟩
      · rintro m hm _ hm' rfl
        exact hnew m hm' (hborn m hm).2
      · exact (List.mem_append.mp hm).elim (fun hm => (hborn m hm).1) (hlater m)

theorem log_eq {r : Registry} {log : σ → List Call} (h : (r.logging log).Passes es w w') :
    log w'.state = log w.state ++ es.map Event.call := by
  induction h with
  | nil state => rw [state, List.map_nil, List.append_nil]
  | cons first _ ih =>
    have hfirst : log _ = log _ ++ [_] := first.state
    rw [ih, hfirst, List.append_assoc, List.singleton_append, List.map_cons]

end Rules.Passes

theorem named_sublist_ids (ts : List (Outline Cell)) : (named ts).Sublist (ids ts) :=
  List.filter_sublist.map Cell.id

theorem ids_children_sublist (trees : List (Outline Cell)) :
    (ids (trees.flatMap Outline.children)).Sublist (ids trees) := by
  induction trees with
  | nil => exact .refl _
  | cons t trees ih =>
    obtain ⟨a, us⟩ := t
    rw [List.flatMap_cons, ids_append, ids_cons]
    exact ((List.Sublist.refl (ids us)).append ih).cons a.id

/-- The events are the trace of a forest, which is determined by the trees that are read. Each named
node of the forest, or below the root of a tree that is read, is looked up, and none twice. -/
structure Registry.IsTrace (r : Registry) (ts : List (Outline Cell)) (es : List Event) : Prop where
  traces : r.Traces {} ts es
  unique : ∀ es', r.Traces {} ts es' → es'.filterMap Event.tree? = es.filterMap Event.tree? →
    es' = es
  visits : (Event.nodes es).Perm (named (ts ++ Event.brought es))
  once : (Event.nodes es).Nodup

/-- A resolution makes the calls of the trace of what is below the root, and no others. -/
theorem resolveBelow_traces (r : Registry) (templates : r.OfTemplates) (log : σ → List Call)
    (c : Surroundings σ) (describes : (r.logging log).Describes c) (w : World σ)
    (sound : w.store.Sound) (root : NodeId) :
    ∃ k w' es, (∀ limits : Limits, k ≤ limits.depth → k ≤ limits.steps →
        (resolveBelow (pure c) limits root).run w = (.done (), w')) ∧
      log w'.state = log w.state ++ es.map Event.call ∧ r.IsTrace (w.store.forest root) es := by
  obtain ⟨w', es, ⟨k, hk⟩, _, settles, passes⟩ := Rules.resolveBelow_settles describes
    ⟨sound, fun _ _ => trivial⟩ (fun _ _ => Registry.reads_ne_error) root
  have traces := Registry.Traces.of_settles templates settles
  have hperm := traces.nodes_perm
  refine ⟨k, w', es, hk, passes.log_eq, traces, fun es' traces' same => ?_, hperm, ?_⟩
  · have hxs : es'.filterMap Event.tree? ++ [] = es.filterMap Event.tree? ++ [] := by rw [same]
    exact (traces'.unique traces hxs).1
  · obtain ⟨hborn, hnew⟩ := passes.born
    have hsub := ids_children_sublist (es.filterMap Event.tree?)
    obtain ⟨hnodup, _, hheld⟩ := sound.linked.shows_forest.among sound.linked
      (by simpa using sound.linked.children_eq_forest :
        w.store.children root = [] ++ (roots (w.store.forest root) ++ []))
    rw [hperm.nodup_iff]
    refine List.Nodup.sublist (named_sublist_ids _) ?_
    rw [ids_append, List.nodup_append]
    refine ⟨hnodup, hborn.sublist hsub, ?_⟩
    rintro m hm _ hm' rfl
    exact hnew m (hsub.subset hm') (hheld m hm)

/-- The tree `x>x` is resolved by the trace of it, where the template `a>x` of `x` mentions `x`. -/
theorem resolveBelow_traces_selfReferring :
    ∃ (c : Surroundings (Unit × List Call)) (w : World (Unit × List Call)) (root : NodeId),
      Plan.selfReferring.registry.OfTemplates ∧
      (Plan.selfReferring.registry.logging Prod.snd).Describes c ∧ w.store.Sound ∧
      (w.store.document root).children =
        [.node { name := some "x" } [.node { name := some "x" } []]] ∧
      ∃ k w' es, (∀ limits : Limits, k ≤ limits.depth → k ≤ limits.steps →
          (resolveBelow (pure c) limits root).run w = (.done (), w')) ∧
        w'.state.2 = w.state.2 ++ es.map Event.call ∧
        Plan.selfReferring.registry.IsTrace (w.store.forest root) es := by
  obtain ⟨w, root, sound, _, hdocument⟩ := exists_world
    (.node {} [.node { name := some "x" } [.node { name := some "x" } []]]) ((), ([] : List Call))
  have templates : Plan.selfReferring.registry.OfTemplates :=
    Registry.ofTemplates_empty.insert "x" 0 "a>x"
  have describes : (Plan.selfReferring.registry.reading Unit).Describes
      (.planting Plan.selfReferring.registry fun text => .ok (Plan.selfReferring.tree text)) :=
    Surroundings.planting_describes (fun _ => ⟨_, rfl⟩) (fun _ _ => rfl) fun _ _ => trivial
  have records := Surroundings.recording_describes templates describes
  exact ⟨_, w, root, templates, records, sound, by rw [hdocument]; rfl,
    resolveBelow_traces _ templates Prod.snd _ records w sound root⟩

end SnippetTree
