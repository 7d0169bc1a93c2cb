import SnippetTree.Proofs.Schemes

namespace SnippetTree

open Cell Outline

variable {σ : Type}

namespace Scheme

variable {S : Scheme σ} {g : Guard} {ts : List (Outline Element)} {x y : Snippet}

/-- Some tree read of the template of the one registered snippet mentions the other one. -/
def Refers (S : Scheme σ) (x y : Snippet) : Prop :=
  (∃ name, S.registry.find? name = some x) ∧ ∃ text a, x.body = .template text ∧
    ∃ e ∈ labels (S.read text a).1.children, e.name.bind S.registry.find? = some y

/-- No snippet refers back to itself, be it by way of others. -/
def Acyclic (S : Scheme σ) : Prop := ∀ x, ¬Relation.TransGen S.Refers x x

theorem acyclic_of_rank (rank : Snippet → Nat) (ranks : ∀ x y, S.Refers x y → rank y < rank x) :
    S.Acyclic := by
  have hless : ∀ x y, Relation.TransGen S.Refers x y → rank y < rank x := by
    intro x y h
    induction h with
    | single h => exact ranks _ _ h
    | tail _ h ih => exact (ranks _ _ h).trans ih
  exact fun x h => Nat.lt_irrefl _ (hless x x h)

theorem Refers.mem_values (h : S.Refers x y) : y ∈ S.registry.snippets.values := by
  obtain ⟨_, _, _, _, e, _, hy⟩ := h
  obtain ⟨name, _, hfind⟩ := Option.bind_eq_some_iff.mp hy
  exact Registry.mem_values_of_find? hfind

open Classical in
/-- Of the snippets that a snippet leads to, those that it refers to lead to fewer. -/
theorem Acyclic.exists_rank (acyclic : S.Acyclic) :
    ∃ rank : Snippet → Nat, ∀ x y, S.Refers x y → rank y < rank x := by
  refine ⟨fun x => (S.registry.snippets.values.toFinset.filter (Relation.TransGen S.Refers x)).card,
    fun x y h => Finset.card_lt_card ?_⟩
  rw [Finset.ssubset_iff_of_subset]
  · refine ⟨y, ?_, fun hy => acyclic y (Finset.mem_filter.mp hy).2⟩
    exact Finset.mem_filter.mpr ⟨List.mem_toFinset.mpr h.mem_values, .single h⟩
  · intro z hz
    obtain ⟨hmem, hyz⟩ := Finset.mem_filter.mp hz
    exact Finset.mem_filter.mpr ⟨hmem, .head h hyz⟩

/-- Forests may be proved things of by following the templates of their nodes down to forests of which
nothing is registered. -/
theorem Acyclic.induction (acyclic : S.Acyclic) (templates : S.registry.OfTemplates)
    {motive : List (Outline Element) → Prop} (nil : motive [])
    (keep : ∀ e cs ts, e.name.bind S.registry.find? = none → motive cs → motive ts →
      motive (.node e cs :: ts))
    (replace : ∀ e cs ts x text, e.name.bind S.registry.find? = some x → x.body = .template text →
      (∀ a, motive (S.read text a).1.children) → motive cs → motive ts →
      motive (.node e cs :: ts)) (ts : List (Outline Element)) : motive ts := by
  obtain ⟨rank, ranks⟩ := acyclic.exists_rank
  -- for a forest, it is enough to know of the trees of the snippets that it mentions
  have forest : ∀ ts : List (Outline Element), (∀ e ∈ labels ts, ∀ x text,
      e.name.bind S.registry.find? = some x → x.body = .template text →
        ∀ a, motive (S.read text a).1.children) → motive ts := by
    intro ts
    induction ts using forest_induction with
    | nil => exact fun _ => nil
    | cons e cs ts ihc iht =>
      intro known
      have hcs : motive cs := ihc fun e' he' => known e' (by simp [he'])
      have hts : motive ts := iht fun e' he' => known e' (by simp [he'])
      cases hfind : e.name.bind S.registry.find? with
      | none => exact keep e cs ts hfind hcs hts
      | some x =>
        obtain ⟨name, _, hname⟩ := Option.bind_eq_some_iff.mp hfind
        obtain ⟨text, body⟩ := templates name x hname
        exact replace e cs ts x text hfind body (known e (by simp) x text hfind body) hcs hts
  have snippets : ∀ n name x text, rank x = n → S.registry.find? name = some x →
      x.body = .template text → ∀ a, motive (S.read text a).1.children := by
    intro n
    induction n using Nat.strong_induction_on with
    | _ n ih =>
      intro name x text hrank hfind body a
      refine forest _ fun e he y text' hy body' => ?_
      obtain ⟨name', _, hname'⟩ := Option.bind_eq_some_iff.mp hy
      have hless := ranks x y ⟨⟨name, hfind⟩, text, a, body, e, he, hy⟩
      exact ih (rank y) (hrank ▸ hless) name' y text' rfl hname' body'
  refine forest ts fun e _ x text hx body => ?_
  obtain ⟨name, _, hname⟩ := Option.bind_eq_some_iff.mp hx
  exact snippets _ name x text rfl hname body

/-- Nothing that a forest mentions is in the guard or leads to a snippet of it. -/
def Clear (S : Scheme σ) (g : Guard) (ts : List (Outline Element)) : Prop :=
  ∀ e ∈ labels ts, ∀ x, e.name.bind S.registry.find? = some x →
    ∀ y, g.contains y = true → ¬Relation.ReflTransGen S.Refers x y

theorem clear_empty (ts : List (Outline Element)) : S.Clear {} ts := by
  intro e _ x _ y hy
  cases hy

theorem Clear.below {e : Element} {cs ts : List (Outline Element)}
    (h : S.Clear g (.node e cs :: ts)) : S.Clear g cs := fun e' he' => h e' (by simp [he'])

theorem Clear.rest {e : Element} {cs ts : List (Outline Element)}
    (h : S.Clear g (.node e cs :: ts)) : S.Clear g ts := fun e' he' => h e' (by simp [he'])

theorem Clear.template {e : Element} {cs ts : List (Outline Element)} {text : String} {a : σ}
    (h : S.Clear g (.node e cs :: ts)) (acyclic : S.Acyclic)
    (hx : e.name.bind S.registry.find? = some x) (body : x.body = .template text) :
    S.Clear (g.insert x) (S.read text a).1.children := by
  obtain ⟨name, _, hfind⟩ := Option.bind_eq_some_iff.mp hx
  intro e' he' z hz y hy hzy
  have refers : S.Refers x z := ⟨⟨name, hfind⟩, text, a, body, e', he', hz⟩
  have hxy : Relation.TransGen S.Refers x y := .head' refers hzy
  rw [Guard.contains_insert, Bool.or_eq_true, beq_iff_eq] at hy
  rcases hy with rfl | hy
  · exact acyclic _ hxy
  · exact h e (by simp) x hx y hy hxy.to_reflTransGen

theorem due?_of_clear {e : Element} {cs ts : List (Outline Element)}
    (h : S.Clear g (.node e cs :: ts)) (hx : e.name.bind S.registry.find? = some x) :
    S.registry.due? g e = some x := by
  have hout : ¬g.contains x = true := fun hg => h e (by simp) x hx x hg .refl
  rw [Registry.due?, hx, Option.filter_some, if_pos (by simpa using hout)]

theorem Acyclic.grow_eq_of_clear (acyclic : S.Acyclic) (templates : S.registry.OfTemplates)
    (ts : List (Outline Element)) :
    ∀ g, S.Clear g ts → ∀ a, S.grow g ts a = S.grow {} ts a := by
  induction ts using acyclic.induction templates with
  | nil =>
    intro g _ a
    rw [grow_nil, grow_nil]
  | keep e cs ts hnone ihc iht =>
    intro g clear a
    have due : ∀ g, S.registry.due? g e = none := fun g => Registry.due?_of_none hnone
    rw [grow_keep (due g), grow_keep (due {}), ihc g clear.below, iht g clear.rest]
  | replace e cs ts x text hx body ihu ihc iht =>
    intro g clear a
    have clear₀ : S.Clear {} (.node e cs :: ts) := clear_empty _
    rw [grow_replace (due?_of_clear clear hx) body, grow_replace (due?_of_clear clear₀ hx) body]
    simp only [ihu a _ (clear.template acyclic hx body), ihu a _ (clear₀.template acyclic hx body),
      ihc g clear.below, iht g clear.rest]

theorem Acyclic.grow_replace (acyclic : S.Acyclic) (templates : S.registry.OfTemplates)
    {e : Element} {text : String} (hx : e.name.bind S.registry.find? = some x)
    (body : x.body = .template text) (cs ts : List (Outline Element)) (a : σ) :
    S.grow {} (.node e cs :: ts) a =
      let inner := S.grow {} (S.read text a).1.children (S.read text a).2
      let own := S.grow {} cs inner.2
      let rest := S.grow {} ts own.2
      ((graft inner.1 own.1).map (relabel (·.merge e)) ++ rest.1, rest.2) := by
  have clear : S.Clear {} (.node e cs :: ts) := clear_empty _
  rw [Scheme.grow_replace (due?_of_clear clear hx) body]
  simp only [acyclic.grow_eq_of_clear templates _ _ (clear.template acyclic hx body)]

theorem name_of_mem_labels_relabel {e b : Element} {ts : List (Outline Element)}
    (h : b ∈ labels (ts.map (relabel (·.merge e)))) : ∃ c ∈ labels ts, b.name = c.name := by
  induction ts with
  | nil => cases h
  | cons t ts ih =>
    obtain ⟨c, cs⟩ := t
    rw [List.map_cons, relabel, labels_cons, List.mem_cons, List.mem_append] at h
    rw [labels_cons]
    rcases h with rfl | h | h
    · exact ⟨c, by simp, rfl⟩
    · exact ⟨b, by simp [h], rfl⟩
    · obtain ⟨c', hc', hname⟩ := ih h
      exact ⟨c', by simp [hc'], hname⟩

/-- Nothing registered is left of a forest that has grown. -/
theorem Acyclic.unmatched_grow (acyclic : S.Acyclic) (templates : S.registry.OfTemplates)
    (ts : List (Outline Element)) :
    ∀ a, ∀ e ∈ labels (S.grow {} ts a).1, S.registry.matched e = false := by
  induction ts using acyclic.induction templates with
  | nil =>
    intro a e he
    rw [grow_nil] at he
    cases he
  | keep e cs ts hnone ihc iht =>
    intro a b hb
    rw [grow_keep (Registry.due?_of_none hnone), labels_cons, List.mem_cons, List.mem_append] at hb
    rcases hb with rfl | hb | hb
    · rw [Registry.matched, hnone, Option.isSome_none]
    · exact ihc _ b hb
    · exact iht _ b hb
  | replace e cs ts x text hx body ihu ihc iht =>
    intro a b hb
    rw [acyclic.grow_replace templates hx body, labels_append, List.mem_append] at hb
    rcases hb with hb | hb
    · obtain ⟨c, hc, hname⟩ := name_of_mem_labels_relabel hb
      rw [Registry.matched, hname]
      rw [labels_graft, List.mem_append] at hc
      rcases hc with hc | hc
      · exact ihu a _ c hc
      · exact ihc _ c hc
    · exact iht _ b hb

/-- The scheme whose reader expands each tree before it gives it out. -/
def preexpanded (S : Scheme σ) : Scheme σ where
  registry := S.registry
  read text a :=
    let tree := S.read text a
    let below := S.grow {} tree.1.children tree.2
    (.node tree.1.label below.1, below.2)

/-- Whatever is resolved, its templates may be expanded beforehand. -/
theorem Acyclic.preexpanded_grow (acyclic : S.Acyclic) (templates : S.registry.OfTemplates)
    (ts : List (Outline Element)) (a : σ) : S.preexpanded.grow {} ts a = S.grow {} ts a := by
  induction ts using forest_induction generalizing a with
  | nil => rw [grow_nil, grow_nil]
  | cons e cs ts ihc iht =>
    cases hfind : e.name.bind S.registry.find? with
    | none =>
      have due : S.registry.due? {} e = none := Registry.due?_of_none hfind
      have due' : S.preexpanded.registry.due? {} e = none := due
      rw [grow_keep due, grow_keep due', ihc, iht]
    | some x =>
      obtain ⟨name, _, hname⟩ := Option.bind_eq_some_iff.mp hfind
      obtain ⟨text, body⟩ := templates name x hname
      have due : S.registry.due? {} e = some x := due?_of_clear (clear_empty [.node e cs]) hfind
      have due' : S.preexpanded.registry.due? {} e = some x := due
      have unmatched := acyclic.unmatched_grow templates (S.read text a).1.children (S.read text a).2
      rw [acyclic.grow_replace templates hfind body, Scheme.grow_replace due' body]
      -- the tree that is given out has nothing left to expand
      have hself : ∀ g, S.preexpanded.grow g (S.preexpanded.read text a).1.children
          (S.preexpanded.read text a).2 = ((S.preexpanded.read text a).1.children,
            (S.preexpanded.read text a).2) := fun g =>
        grow_eq_self (S := S.preexpanded) unmatched _
      simp only [hself, ihc, iht]
      rfl

end Scheme

/-- The surroundings with a reader that resolves each tree before it gives it out, under new guards
and with some room of its own. -/
def Surroundings.resolving (c : Surroundings σ) (room : Nat) : Surroundings σ :=
  { c with
    parse := fun text => do
      let tree ← c.parse text
      resolveBelow (pure c) ⟨room, room⟩ tree
      return tree }

namespace Scheme

variable {S : Scheme σ} {c : Surroundings σ}

theorem resolving_depicts (templates : S.registry.OfTemplates) (describes : S.rules.Describes c) :
    S.preexpanded.rules.Depicts c.resolving where
  lookup := describes.depicts.lookup
  parse := by
    intro name s text hfind body w sound
    rcases describes.depicts.exists_grown hfind body sound with
      ⟨tree, w₁, us, hparse, grown₁, _, hchange⟩ | ⟨e, w₁, _, _, hread⟩
    swap
    · exact absurd hread (not_reads_error text e)
    have sound₁ := grown₁.sound
    obtain ⟨w₂, ts', hends, sound₂, reached, hgrow⟩ :=
      resolveBelow_reaches templates describes.depicts sound₁ tree
    rw [grown₁.shown.forest_eq sound₁.linked grown₁.children] at reached
    have grown₂ := grown₁.reaches reached sound₂
    have hread : S.read text w.state = (w₁.store.document tree, w₁.state) := by
      rw [grown₁.shown.document_eq sound₁.linked grown₁.children]
      exact read_of_changes hchange
    have hdocument : S.preexpanded.read text w.state = (w₂.store.document tree, w₂.state) := by
      have htree := grown₁.shown.not_mem_ids sound₁.linked grown₁.children
      have hlabel : (w₁.store.document tree).label = (w₂.store.document tree).label := by
        rw [sound₁.linked.label_document, sound₂.linked.label_document]
        exact (reached.frame.element tree grown₁.held htree).symm
      simp only [preexpanded, hread, hgrow, hlabel, node_label_children]
    refine Or.inl ⟨tree, w₂, hparse.bind (hends.level.bind (.of_run rfl)), grown₂.frame,
      fun m hm => grown₂.fresh m ?_, grown₂.held, ⟨w.state, by rw [hdocument]⟩, ?_⟩
    · rw [List.mem_cons, grown₂.shown.mem_ids_iff_above sound₂.linked grown₂.children]
      exact hm
    · rw [← sound₂.linked.map_element_cells] at hdocument
      exact hdocument

end Scheme

/-- Where no snippet refers back to itself, a resolution gives the same result, names, data, order and
nesting, whether templates are expanded within it or each on its own as soon as it is read. The reader
may keep a state, and is left in the same one. -/
theorem resolveBelow_preexpands (S : Scheme σ) (templates : S.registry.OfTemplates)
    (acyclic : S.Acyclic) (c : Surroundings σ) (describes : S.rules.Describes c) (w : World σ)
    (sound : w.store.Sound) (root : NodeId) :
    ∃ k w₁ w₂, (∀ limits : Limits, k ≤ limits.depth → k ≤ limits.steps →
        (resolveBelow (pure c) limits root).run w = (.done (), w₁) ∧
        (resolveBelow (pure (c.resolving limits.steps)) limits root).run w = (.done (), w₂)) ∧
      (w₂.store.document root).children = (w₁.store.document root).children ∧
      w₂.state = w₁.state := by
  obtain ⟨w₁, _, hends, _, _, hgrow⟩ :=
    Scheme.resolveBelow_reaches templates describes.depicts sound root
  obtain ⟨w₂, _, hends', _, _, hgrow'⟩ :=
    Scheme.resolveBelow_reaches (S := S.preexpanded) templates
      (Scheme.resolving_depicts templates describes) sound root
  obtain ⟨k, hk⟩ := hends.both hends'
  refine ⟨k, w₁, w₂, hk, ?_⟩
  rw [acyclic.preexpanded_grow templates, hgrow] at hgrow'
  have hsame := Prod.mk.inj hgrow'
  exact ⟨hsame.1.symm, hsame.2.symm⟩

/-- A snippet `x` whose template is a node `y`, and `y`, whose template is a node `b`. The reader
counts how often it reads. -/
def Scheme.descending : Scheme Nat where
  registry := ⟨(Keyed.insert ∅ "x" { serial := 1, body := .template "y" }).insert "y"
    { serial := 0, body := .template "b" }⟩
  read text count := (.node {} [.node { name := some text } []], count + 1)

theorem Scheme.acyclic_descending : Scheme.descending.Acyclic := by
  refine acyclic_of_rank Snippet.serial ?_
  rintro x y ⟨⟨name, hfind⟩, text, a, body, e, he, hy⟩
  cases List.mem_singleton.mp he
  have hx : x ∈ [_, _] := Registry.mem_values_of_find? hfind
  rcases List.mem_pair.mp hx with rfl | rfl <;> cases body
  · cases hy
    decide
  · cases hy

/-- With its template expanded beforehand, `x>(x+c)` becomes what it becomes otherwise. -/
theorem resolveBelow_preexpands_descending :
    ∃ (c : Surroundings Nat) (w : World Nat) (root : NodeId),
      Scheme.descending.registry.OfTemplates ∧ Scheme.descending.Acyclic ∧
      Scheme.descending.rules.Describes c ∧ w.store.Sound ∧ (w.store.document root).children =
        [.node { name := some "x" } [.node { name := some "x" } [], .node { name := some "c" } []]] ∧
      ∃ k w₁ w₂, (∀ limits : Limits, k ≤ limits.depth → k ≤ limits.steps →
          (resolveBelow (pure c) limits root).run w = (.done (), w₁) ∧
          (resolveBelow (pure (c.resolving limits.steps)) limits root).run w = (.done (), w₂)) ∧
        (w₂.store.document root).children = (w₁.store.document root).children ∧
        w₂.state = w₁.state := by
  obtain ⟨w, root, sound, _, hdocument⟩ := exists_world (.node {} [.node { name := some "x" }
    [.node { name := some "x" } [], .node { name := some "c" } []]]) 0
  have templates : Scheme.descending.registry.OfTemplates :=
    (Registry.ofTemplates_empty.insert "x" 1 "y").insert "y" 0 "b"
  have describes : Scheme.descending.rules.Describes Scheme.descending.surroundings :=
    Scheme.surroundings_describes _ fun _ _ => rfl
  exact ⟨_, w, root, templates, Scheme.acyclic_descending, describes, sound, by rw [hdocument]; rfl,
    resolveBelow_preexpands _ templates Scheme.acyclic_descending _ describes w sound root⟩

end SnippetTree
