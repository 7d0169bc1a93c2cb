import SnippetTree.Proofs.Covering

namespace SnippetTree

open Cell Script

variable {σ : Type}

namespace Store

variable {s s' s'' : Store} {n m p q tree last : NodeId} {ts : List (Outline Cell)}

/-- What was in the first store is in the second one, with the same data below the same parent. -/
structure Spares (s s' : Store) : Prop where
  preserves : s.Preserves s'
  parent : ∀ m ∈ s, (s'.links m).parent = (s.links m).parent
  childless : ∀ m ∈ s, s.children m = [] → s'.children m = []

theorem Spares.trans (h : s.Spares s') (h' : s'.Spares s'') : s.Spares s'' where
  preserves := h.preserves.trans h'.preserves
  parent := fun m hm => (h'.parent m (h.preserves.held m hm)).trans (h.parent m hm)
  childless := fun m hm start =>
    h'.childless m (h.preserves.held m hm) (h.childless m hm start)

theorem Rests.spares (h : s.Rests s') : s.Spares s' := by
  obtain ⟨nodes, attributes, repetitions, _, _⟩ := s'
  obtain ⟨rfl, rfl, rfl⟩ := h
  exact ⟨⟨fun _ hm => hm, fun _ _ => rfl, .of_eq rfl rfl⟩, fun _ _ => rfl, fun _ _ start => start⟩

theorem Extends.spares (h : s.Extends s') (linked : s.WellLinked) (preserves : s.Preserves s') :
    s.Spares s' :=
  ⟨preserves, fun m hm => by rw [h.links m hm], fun m hm start =>
    (h.children linked hm).trans start⟩

theorem Shows.closed (h : s.Shows ts) (linked : s.WellLinked) (hp : (s.links m).parent = some q)
    (hq : q ∈ ids ts) : m ∈ ids ts := by
  obtain ⟨r, hr, hrq⟩ := (h.mem_ids_iff linked).mp hq
  refine (h.mem_ids_iff linked).mpr ⟨r, hr, Or.inr ?_⟩
  rcases hrq with rfl | ha
  · exact .single hp
  · exact ha.tail hp

theorem Supplants.children_nil (h : s.Supplants s' n last tree p) (linked : s.WellLinked)
    (linked' : s'.WellLinked) (hl : m ≠ last) (hp : m ≠ p) (start : s.children m = []) :
    s'.children m = [] := by
  rw [List.eq_nil_iff_forall_not_mem]
  intro c hc
  have hc' := linked'.mem_children.mp hc
  have hcn : c ≠ n := by
    rintro rfl
    rw [h.detached] at hc'
    cases hc'
  rcases h.parent c hcn with same | ⟨_, now | now⟩
  · have hm : c ∈ s.children m := linked.mem_children.mpr (same ▸ hc')
    rw [start] at hm
    cases hm
  · exact hl (Option.some.inj (hc'.symm.trans now))
  · exact hp (Option.some.inj (hc'.symm.trans now))

theorem Supplants.alone (h : s.Supplants s' n last tree p) (linked : s.WellLinked)
    (linked' : s'.WellLinked) (hn : m ≠ n) (hl : m ≠ last) (hp : m ≠ p)
    (parent : (s.links m).parent = none) (childless : s.children m = []) :
    (s'.links m).parent = none ∧ s'.children m = [] ∧ s'.data m = s.data m := by
  have other : ∀ q, (s.links m).parent ≠ some q := fun q hq => by
    rw [parent] at hq
    cases hq
  refine ⟨?_, h.children_nil linked linked' hl hp childless,
    h.data m (other tree) fun hm => absurd hm (other n)⟩
  rcases h.parent m hn with same | ⟨hm | hm, _⟩
  · exact same.trans parent
  · exact absurd hm (other n)
  · exact absurd hm (other tree)

theorem WellLinked.links_eq_empty (h : s.WellLinked) (parent : (s.links n).parent = none)
    (childless : s.children n = []) : s.links n = {} := by
  obtain ⟨next, previous⟩ := h.alone n parent
  refine Links.ext parent ?_ ?_ next previous
  · rw [h.firstChild, childless]
    rfl
  · rw [(h.siblings n).last, childless]
    rfl

theorem WellLinked.links_congr (h : s.WellLinked) (h' : s'.WellLinked)
    (parent : (s'.links n).parent = (s.links n).parent) (children : s'.children n = s.children n)
    (siblings : ∀ q, (s.links n).parent = some q → s'.children q = s.children q) :
    s'.links n = s.links n := by
  have first : (s'.links n).firstChild = (s.links n).firstChild := by
    rw [h.firstChild, h'.firstChild, children]
  have last : (s'.links n).lastChild = (s.links n).lastChild := by
    rw [(h.siblings n).last, (h'.siblings n).last, children]
  cases hp : (s.links n).parent with
  | none =>
    obtain ⟨next, previous⟩ := h.alone n hp
    obtain ⟨next', previous'⟩ := h'.alone n (parent.trans hp)
    exact Links.ext parent first last (next'.trans next.symm) (previous'.trans previous.symm)
  | some q =>
    obtain ⟨before, after, split⟩ := List.append_of_mem (h.mem_children.mpr hp)
    obtain ⟨_, previous, next⟩ := (h.siblings q).placed before n after split
    obtain ⟨_, previous', next'⟩ :=
      (h'.siblings q).placed before n after ((siblings q hp).trans split)
    exact Links.ext parent first last (next'.trans next.symm) (previous'.trans previous.symm)

end Store

namespace Rules

variable {ρ : Rules σ} {G : Guard} {a : Cell} {cs cs' ts ts' us us' : List (Outline Cell)}
  {es es' : List Event} {s s' s₁ s₂ : Store} {x : Snippet} {m n p q tree last : NodeId}
  {before after : List NodeId}

/-- In these events a template is read for the node, of which nothing is left below the root once it
is resolved. -/
def EmptyAt (ρ : Rules σ) (es : List Event) (q : NodeId) : Prop :=
  ∃ earlier name active text top us inner later,
    es = earlier ++ .lookup q name :: .parse active text (.node top us) :: (inner ++ later) ∧
      ρ.Settles active us inner []

theorem EmptyAt.mono (h : ρ.EmptyAt es q) (part : es <:+: es') : ρ.EmptyAt es' q := by
  obtain ⟨earlier', name, active, text, top, us, inner, later', rfl, settles⟩ := h
  obtain ⟨earlier, later, rfl⟩ := part
  refine ⟨earlier ++ earlier', name, active, text, top, us, inner, later' ++ later, ?_, settles⟩
  simp only [List.append_assoc, List.cons_append]

/-- A node of the forest that goes, with nothing coming in its place. -/
structure Vacates (ρ : Rules σ) (G : Guard) (ts : List (Outline Cell)) (es : List Event)
    (q : NodeId) : Prop where
  due : ∃ b ∈ Outline.labels ts, b.id = q ∧ (ρ.registry.due? G b.element).isSome
  empty : ρ.EmptyAt es q

theorem Vacates.mem (h : ρ.Vacates G ts es q) : q ∈ ids ts := by
  obtain ⟨b, hb, rfl, _⟩ := h.due
  exact List.mem_map_of_mem hb

theorem Vacates.mono (h : ρ.Vacates G ts es q) (labels : Outline.labels ts ⊆ Outline.labels us)
    (part : es <:+: es') : ρ.Vacates G us es' q := by
  obtain ⟨b, hb, hq⟩ := h.due
  exact ⟨⟨b, labels hb, hq⟩, h.empty.mono part⟩

theorem Vacates.below (h : ρ.Vacates G cs es q) (earlier : List Event) :
    ρ.Vacates G [.node a cs] (earlier ++ es) q :=
  h.mono (by simp [Outline.labels_cons]) (List.suffix_append earlier es).isInfix

/-- What the resolution of a forest does to the nodes of the first store. -/
structure Confines (ρ : Rules σ) (G : Guard) (ts ts' : List (Outline Cell)) (es : List Event)
    (s s' : Store) : Prop where
  held : ∀ m ∈ s, m ∈ s'
  retains : s.Retains s'
  data : ∀ m ∈ s, (∀ q, (s.links m).parent = some q → ¬ρ.Vacates G ts es q) → s'.data m = s.data m
  parent : ∀ m ∈ s, m ∉ ids ts → (s'.links m).parent = (s.links m).parent
  childless : ∀ m ∈ s, m ∉ ids ts → s.children m = [] → s'.children m = []
  gone : ∀ a ∈ Outline.labels ts, (ρ.registry.due? G a.element).isSome → a.id ∈ s →
    (s'.links a.id).parent = none ∧ s'.children a.id = [] ∧ s'.data a.id = s.data a.id
  origin : ∀ m ∈ s, m ∈ ids ts' → m ∈ ids ts
  lifted : ∀ m ∈ s, m ∈ roots ts' →
    m ∈ roots ts ∨ ∃ q, (s.links m).parent = some q ∧ ρ.Vacates G ts es q

namespace Confines

theorem nil (s : Store) : ρ.Confines G [] [] [] s s where
  held := fun _ hm => hm
  retains := .refl s
  data := fun _ _ _ => rfl
  parent := fun _ _ _ => rfl
  childless := fun _ _ _ start => start
  gone := by simp
  origin := by simp
  lifted := by simp

theorem of_later (h : ρ.Confines G ts ts' es s₁ s') (spares : s.Spares s₁) :
    ρ.Confines G ts ts' es s s' where
  held := fun m hm => h.held m (spares.preserves.held m hm)
  retains := spares.preserves.retains.trans h.retains
  data := by
    intro m hm stays
    rw [← spares.preserves.data m hm]
    exact h.data m (spares.preserves.held m hm) fun q hq => stays q (spares.parent m hm ▸ hq)
  parent := fun m hm out =>
    (h.parent m (spares.preserves.held m hm) out).trans (spares.parent m hm)
  childless := fun m hm out start =>
    h.childless m (spares.preserves.held m hm) out (spares.childless m hm start)
  gone := by
    intro a ha due hm
    rw [← spares.preserves.data a.id hm]
    exact h.gone a ha due (spares.preserves.held a.id hm)
  origin := fun m hm => h.origin m (spares.preserves.held m hm)
  lifted := by
    intro m hm hr
    rw [← spares.parent m hm]
    exact h.lifted m (spares.preserves.held m hm) hr

theorem of_earlier (h : ρ.Confines G ts ts' es s s₁) (spares : s₁.Spares s') :
    ρ.Confines G ts ts' es s s' where
  held := fun m hm => spares.preserves.held m (h.held m hm)
  retains := h.retains.trans spares.preserves.retains
  data := fun m hm stays => (spares.preserves.data m (h.held m hm)).trans (h.data m hm stays)
  parent := fun m hm out => (spares.parent m (h.held m hm)).trans (h.parent m hm out)
  childless := fun m hm out start =>
    spares.childless m (h.held m hm) (h.childless m hm out start)
  gone := by
    intro a ha due hm
    obtain ⟨parent, children, data⟩ := h.gone a ha due hm
    have hm₁ := h.held a.id hm
    exact ⟨(spares.parent a.id hm₁).trans parent, spares.childless a.id hm₁ children,
      (spares.preserves.data a.id hm₁).trans data⟩
  origin := h.origin
  lifted := h.lifted

theorem spares (h : ρ.Confines G ts ts' es s₁ s') (spares : s.Spares s₁) (linked : s.WellLinked)
    (fresh : ∀ m ∈ ids ts, m ∉ s) : s.Spares s' := by
  have h := h.of_later spares
  have out : ∀ m ∈ s, m ∉ ids ts := fun m hm hin => fresh m hin hm
  exact ⟨⟨h.held, fun m hm => h.data m hm fun q hq vacates =>
      fresh q vacates.mem (linked.parent_mem hq), h.retains⟩,
    fun m hm => h.parent m hm (out m hm), fun m hm => h.childless m hm (out m hm)⟩

theorem append (h : ρ.Confines G ts ts' es s s₁) (h' : ρ.Confines G us us' es' s₁ s')
    (apart : ∀ m ∈ ids us, m ∉ ids ts)
    (closed : ∀ m q, (s.links m).parent = some q → q ∈ ids ts → m ∈ ids ts)
    (closed₁ : ∀ m q, (s₁.links m).parent = some q → q ∈ ids us → m ∈ ids us) :
    ρ.Confines G (ts ++ us) (ts' ++ us') (es ++ es') s s' := by
  have left : ∀ {q}, ρ.Vacates G ts es q → ρ.Vacates G (ts ++ us) (es ++ es') q := fun hv =>
    hv.mono (by simp [Outline.labels_append]) (List.prefix_append es es').isInfix
  have right : ∀ {q}, ρ.Vacates G us es' q → ρ.Vacates G (ts ++ us) (es ++ es') q := fun hv =>
    hv.mono (by simp [Outline.labels_append]) (List.suffix_append es es').isInfix
  -- nothing came below a node of the second forest, so what is there now was there before
  have back : ∀ m ∈ s, ∀ q, (s₁.links m).parent = some q → q ∈ ids us →
      (s.links m).parent = some q := fun m hm q hp hq => by
    rw [← h.parent m hm (apart m (closed₁ m q hp hq)), hp]
  refine ⟨fun m hm => h'.held m (h.held m hm), h.retains.trans h'.retains, fun m hm stays => ?_,
    fun m hm out => ?_, fun m hm out start => ?_, fun a ha due hm => ?_, fun m hm hin => ?_,
    fun m hm hr => ?_⟩
  · rw [h'.data m (h.held m hm) fun q hq hv => stays q (back m hm q hq hv.mem) (right hv)]
    exact h.data m hm fun q hq hv => stays q hq (left hv)
  · rw [ids_append, List.mem_append, not_or] at out
    rw [h'.parent m (h.held m hm) out.2, h.parent m hm out.1]
  · rw [ids_append, List.mem_append, not_or] at out
    exact h'.childless m (h.held m hm) out.2 (h.childless m hm out.1 start)
  · rw [Outline.labels_append, List.mem_append] at ha
    rcases ha with ha | ha
    · obtain ⟨parent, children, data⟩ := h.gone a ha due hm
      have out : a.id ∉ ids us := fun hin => apart a.id hin (List.mem_map_of_mem ha)
      have held := h.held a.id hm
      refine ⟨(h'.parent a.id held out).trans parent, h'.childless a.id held out children, ?_⟩
      rw [h'.data a.id held (fun q hq => by rw [parent] at hq; cases hq), data]
    · obtain ⟨parent, children, data⟩ := h'.gone a ha due (h.held a.id hm)
      refine ⟨parent, children, data.trans (h.data a.id hm fun q hq hv => ?_)⟩
      exact apart a.id (List.mem_map_of_mem ha) (closed a.id q hq hv.mem)
  · rw [ids_append, List.mem_append] at hin ⊢
    exact hin.imp (h.origin m hm) (h'.origin m (h.held m hm))
  · rw [roots_append, List.mem_append] at hr ⊢
    rcases hr with hr | hr
    · rcases h.lifted m hm hr with hr | ⟨q, hq, hv⟩
      · exact Or.inl (Or.inl hr)
      · exact Or.inr ⟨q, hq, left hv⟩
    · rcases h'.lifted m (h.held m hm) hr with hr | ⟨q, hq, hv⟩
      · exact Or.inl (Or.inr hr)
      · exact Or.inr ⟨q, back m hm q hq hv.mem, right hv⟩

theorem keep (h : ρ.Confines G cs cs' es s s') (due : ρ.registry.due? G a.element = none)
    (earlier : List Event) : ρ.Confines G [.node a cs] [.node a cs'] (earlier ++ es) s s' := by
  refine ⟨h.held, h.retains, fun m hm stays => ?_, fun m hm out => ?_, fun m hm out => ?_,
    fun b hb hdue hm => ?_, fun m hm hin => ?_, fun m hm hr => Or.inl hr⟩
  · exact h.data m hm fun q hq hv => stays q hq (hv.below earlier)
  · rw [ids_singleton, List.mem_cons, not_or] at out
    exact h.parent m hm out.2
  · rw [ids_singleton, List.mem_cons, not_or] at out
    exact h.childless m hm out.2
  · rw [Outline.labels_cons, List.mem_cons, Outline.labels_nil, List.append_nil] at hb
    rcases hb with rfl | hb
    · rw [due] at hdue
      cases hdue
    · exact h.gone b hb hdue hm
  · rw [ids_singleton, List.mem_cons] at hin ⊢
    exact hin.imp_right (h.origin m hm)

/-- What is below a node with an empty expansion now, and was there before, either was below that node
or was lifted to it. -/
theorem lifted_own (h : ρ.Confines G cs cs' es s s₁) (stands : s.Stands a cs p before after)
    {earlier : List Event} (vacates : ρ.Vacates G [.node a cs] (earlier ++ es) a.id) (hm : m ∈ s)
    (hr : m ∈ roots cs') :
    ∃ q, (s.links m).parent = some q ∧ ρ.Vacates G [.node a cs] (earlier ++ es) q := by
  rcases h.lifted m hm hr with hr | ⟨q, hq, hv⟩
  · exact ⟨a.id, stands.linked.mem_children.mp (stands.own ▸ hr), vacates⟩
  · exact ⟨q, hq, hv.below earlier⟩

theorem replace (h : ρ.Confines G cs cs' es s s₁) (due : ρ.registry.due? G a.element = some x)
    (stands : s.Stands a cs p before after) (supplants : s₁.Supplants s' a.id last tree p)
    (linked : s₁.WellLinked) (linked' : s'.WellLinked) (template : s₁.children tree = roots us')
    (own : s₁.children a.id = roots cs') (childless : s'.children a.id = [])
    (fresh : ∀ m ∈ tree :: ids us', m ∉ s) (leaf : last ∈ tree :: ids us')
    (emptied : last = tree → us' = []) {earlier : List Event}
    (empty : us' = [] → ρ.EmptyAt (earlier ++ es) a.id) :
    ρ.Confines G [.node a cs] (giveAll a.element (Outline.graft us' cs')) (earlier ++ es) s s' := by
  have vacates : us' = [] → ρ.Vacates G [.node a cs] (earlier ++ es) a.id := fun hus =>
    ⟨⟨a, by simp, rfl, by simp [due]⟩, empty hus⟩
  have notBelow : ∀ m ∈ s, (s₁.links m).parent ≠ some tree := by
    intro m hm hp
    have hr : m ∈ roots us' := template ▸ linked.mem_children.mpr hp
    exact fresh m (List.mem_cons_of_mem _ (roots_subset_ids _ hr)) hm
  have below : ∀ {m}, (s₁.links m).parent = some a.id → m ∈ roots cs' := fun hp =>
    own ▸ linked.mem_children.mpr hp
  have data : ∀ m ∈ s, (∀ q, (s.links m).parent = some q →
      ¬ρ.Vacates G [.node a cs] (earlier ++ es) q) → s'.data m = s.data m := by
    intro m hm stays
    rw [supplants.data m (notBelow m hm) fun hp hl => ?_]
    · exact h.data m hm fun q hq hv => stays q hq (hv.below earlier)
    · obtain ⟨q, hq, hv⟩ := h.lifted_own stands (vacates (emptied hl)) hm (below hp)
      exact stays q hq hv
  have leafless : ∀ m ∈ s, m ≠ last := fun m hm he => fresh m (he ▸ leaf) hm
  refine ⟨fun m hm => supplants.held m (h.held m hm), h.retains.trans supplants.retains, data,
    fun m hm out => ?_, fun m hm out start => ?_, fun b hb hdue hm => ?_, fun m hm hin => ?_,
    fun m hm hr => Or.inr ?_⟩
  · rw [ids_singleton, List.mem_cons, not_or] at out
    rcases supplants.parent m out.1 with same | ⟨hp | hp, _⟩
    · exact same.trans (h.parent m hm out.2)
    · exact absurd (h.origin m hm (roots_subset_ids _ (below hp))) out.2
    · exact absurd hp (notBelow m hm)
  · rw [ids_singleton, List.mem_cons, not_or] at out
    have hmp : m ≠ p := by
      rintro rfl
      have hc := stands.children
      rw [start] at hc
      simp at hc
    exact supplants.children_nil linked linked' (leafless m hm) hmp (h.childless m hm out.2 start)
  · rw [Outline.labels_cons, List.mem_cons, Outline.labels_nil, List.append_nil] at hb
    rcases hb with rfl | hb
    · refine ⟨supplants.detached, childless, data _ hm fun q hq hv => ?_⟩
      rw [stands.parent] at hq
      cases hq
      exact stands.among.2.1 (by simpa [ids_singleton] using hv.mem)
    · obtain ⟨parent, children, same⟩ := h.gone b hb hdue hm
      have hb' : b.id ∈ ids cs := List.mem_map_of_mem hb
      have hne : b.id ≠ a.id := fun he => stands.not_mem (he ▸ hb')
      have hbp : b.id ≠ p := by
        rintro he
        exact stands.among.2.1 (he ▸ List.mem_cons_of_mem _ hb')
      obtain ⟨parent', children', same'⟩ :=
        supplants.alone linked linked' hne (leafless _ hm) hbp parent children
      exact ⟨parent', children', same'.trans same⟩
  · rw [ids_giveAll, ids_graft, List.mem_append] at hin
    rw [ids_singleton]
    rcases hin with hin | hin
    · exact absurd hm (fresh m (List.mem_cons_of_mem _ hin))
    · exact List.mem_cons_of_mem _ (h.origin m hm hin)
  · rw [roots_giveAll] at hr
    by_cases hus : us' = []
    · rw [hus, Outline.graft] at hr
      exact h.lifted_own stands (vacates hus) hm hr
    · rw [roots_graft hus] at hr
      exact absurd hm (fresh m (List.mem_cons_of_mem _ (roots_subset_ids _ hr)))

end Confines

end Rules

end SnippetTree
