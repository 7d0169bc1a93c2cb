import SnippetTree.Proofs.Promoted
import SnippetTree.Proofs.Leftover

namespace SnippetTree

open Cell

variable {σ : Type}

/-- A node as it came, with the nodes that were merged into it, in order. -/
structure Gathered where
  first : Cell
  given : List Cell

namespace Gathered

def contributors (l : Gathered) : List Cell := l.first :: l.given

def shown (l : Gathered) : Cell where
  id := l.first.id
  element := (l.given.map Cell.element).foldl Element.merge l.first.element

def give (a : Cell) (l : Gathered) : Gathered := { l with given := l.given ++ [a] }

theorem shown_give (a : Cell) (l : Gathered) : (l.give a).shown = l.shown.give a.element := by
  simp only [shown, give, Cell.give, List.map_append, List.foldl_append, List.map_cons, List.map_nil,
    List.foldl_cons, List.foldl_nil]

/-- The trees with a node merged into each of their tops. -/
def giveAll (a : Cell) (ls : List (Outline Gathered)) : List (Outline Gathered) :=
  ls.map (Outline.relabel (give a))

theorem map_shown_giveAll (a : Cell) (ls : List (Outline Gathered)) :
    (giveAll a ls).map (Outline.map shown) = Cell.giveAll a.element (ls.map (Outline.map shown)) := by
  rw [giveAll, Cell.giveAll, List.map_map, List.map_map]
  refine List.map_congr_left fun l _ => ?_
  obtain ⟨l, below⟩ := l
  simp [Outline.relabel, shown_give]

/-- All contributors of the trees have a property. -/
def All (P : Element → Prop) (ls : List (Outline Gathered)) : Prop :=
  ∀ l ∈ Outline.labels ls, ∀ c ∈ l.contributors, P c.element

theorem All.giveAll {P : Element → Prop} {a : Cell} {ls : List (Outline Gathered)} (h : All P ls)
    (ha : P a.element) : All P (giveAll a ls) := by
  induction ls with
  | nil => exact h
  | cons t ls ih =>
    obtain ⟨l, below⟩ := t
    intro k hk c hc
    have hfirst : ∀ c ∈ l.contributors, P c.element := h l (by simp)
    have hbelow : ∀ k ∈ Outline.labels below, ∀ c ∈ k.contributors, P c.element := fun k hk =>
      h k (by simp [hk])
    rw [Gathered.giveAll, List.map_cons, Outline.relabel, Outline.labels_cons, List.mem_cons,
      List.mem_append] at hk
    rcases hk with rfl | hk | hk
    · simp only [contributors, give, ← List.cons_append, List.mem_append, List.mem_singleton] at hc
      rcases hc with hc | rfl
      · exact hfirst c hc
      · exact ha
    · exact hbelow k hk c hc
    · exact ih (fun k hk => h k (by simp [hk])) k hk c hc

end Gathered

/-- What comes of a forest, each node with its contributors, where the events are those of its
resolution. A node that goes is merged into the tops of what comes in its place. -/
inductive Registry.Gathers (r : Registry) :
    Guard → List (Outline Cell) → List Event → List (Outline Gathered) → Prop
  | nil {g : Guard} : Gathers r g [] [] []
  | keep {g : Guard} {a : Cell} {cs ts : List (Outline Cell)} {below rest : List Event}
      {ls ks : List (Outline Gathered)} (due : r.due? g a.element = none)
      (own : Gathers r g cs below ls) (others : Gathers r g ts rest ks) :
      Gathers r g (.node a cs :: ts) (Event.ofCell a ++ below ++ rest) (.node ⟨a, []⟩ ls :: ks)
  | expand {g : Guard} {a : Cell} {cs ts us : List (Outline Cell)} {inner below rest : List Event}
      {ms ls ks : List (Outline Gathered)} {s : Snippet} {text : String} {top : Cell}
      (due : r.due? g a.element = some s) (body : s.body = .template text)
      (template : Gathers r (g.insert s) us inner ms) (own : Gathers r g cs below ls)
      (others : Gathers r g ts rest ks) :
      Gathers r g (.node a cs :: ts)
        (Event.ofCell a ++ [.parse (g.insert s) text (.node top us)] ++ inner ++ below ++ rest)
        (Gathered.giveAll a (Outline.graft ms ls) ++ ks)

/-- What the rules make of a forest shows what is gathered. Whatever all nodes of the forest and of
the templates have, all contributors have. -/
theorem Rules.Settles.gathers {ρ : Rules σ} {g : Guard} {ts ts' : List (Outline Cell)}
    {es : List Event} {P : Element → Prop} (templates : ρ.registry.OfTemplates)
    (reads : ∀ text t, ρ.reads text (.ok t) → ∀ e ∈ Outline.labels t.children, P e)
    (h : ρ.Settles g ts es ts') (start : ∀ a ∈ Outline.labels ts, P a.element) :
    ∃ ls, ρ.registry.Gathers g ts es ls ∧ ls.map (Outline.map Gathered.shown) = ts' ∧
      Gathered.All P ls := by
  induction h with
  | nil => exact ⟨[], .nil, rfl, by simp [Gathered.All]⟩
  | @keep g a cs cs' ts ts' below rest due _ _ ihc iht =>
    obtain ⟨ls, own, rfl, hls⟩ := ihc fun b hb => start b (by simp [hb])
    obtain ⟨ks, others, rfl, hks⟩ := iht fun b hb => start b (by simp [hb])
    refine ⟨_, .keep due own others, by simp [Gathered.shown], fun l hl c hc => ?_⟩
    rw [Outline.labels_cons, List.mem_cons, List.mem_append] at hl
    rcases hl with rfl | hl | hl
    · rw [Gathered.contributors, List.mem_singleton] at hc
      exact hc ▸ start a (by simp)
    · exact hls l hl c hc
    · exact hks l hl c hc
  | handle due body => exact absurd body (templates.not_handler due)
  | @replace g a cs cs' ts ts' us us' inner below rest s text top due body read _ _ _ _ ihu ihc iht =>
    have hus : ∀ b ∈ Outline.labels us, P b.element := by
      intro b hb
      refine reads text _ read b.element ?_
      rw [Outline.children, Outline.labels_map]
      exact List.mem_map_of_mem hb
    obtain ⟨ms, template, rfl, hms⟩ := ihu hus
    obtain ⟨ls, own, rfl, hls⟩ := ihc fun b hb => start b (by simp [hb])
    obtain ⟨ks, others, rfl, hks⟩ := iht fun b hb => start b (by simp [hb])
    refine ⟨_, .expand due body template own others, ?_, ?_⟩
    · rw [List.map_append, Gathered.map_shown_giveAll, Outline.map_graft]
    · have hgraft : Gathered.All P (Outline.graft ms ls) := by
        intro l hl
        rw [Outline.labels_graft, List.mem_append] at hl
        exact hl.elim (hms l) (hls l)
      intro l hl
      rw [Outline.labels_append, List.mem_append] at hl
      exact hl.elim (hgraft.giveAll (start a (by simp)) l) (hks l)

theorem Gathered.implied_iff {l : Gathered} (named : ∀ c ∈ l.contributors, c.element.WellNamed)
    {x : Attribute} (hx : x ∈ l.shown.element.attributes) : x.implied = false ↔
      Element.Promote x.name (l.contributors.map Cell.element) := by
  have hgiven : ∀ g ∈ l.given.map Cell.element, g.WellNamed := by
    intro g hg
    obtain ⟨c, hc, rfl⟩ := List.mem_map.mp hg
    exact named c (List.mem_cons_of_mem _ hc)
  obtain ⟨hshown, _, hnames⟩ :=
    Element.foldl_merge x.name (named l.first List.mem_cons_self) hgiven
  have hfind : l.shown.element.attribute? x.name = some x :=
    hshown.attribute?_eq_some_iff.mpr ⟨hx, rfl⟩
  rw [contributors, List.map_cons, ← hnames, Element.names]
  change _ ↔ (l.shown.element.attribute? x.name).any _ = true
  simp [hfind]

/-- All elements below the root of any tree that is read have the property. -/
def Surroundings.Gives (c : Surroundings σ) (P : Element → Prop) : Prop :=
  ∀ text (w : World σ) tree w', w.store.Sound → (c.parse text).run w = (.done tree, w') →
    ∀ e ∈ Outline.labels (w'.store.document tree).children, P e

/-- The rules where what is read has a property. -/
def Registry.giving (r : Registry) (log : σ → List Call) (P : Element → Prop) : Rules σ :=
  { r.logging log with
    reads := fun _ out => ∃ t, out = .ok t ∧ ∀ e ∈ Outline.labels t.children, P e }

theorem Registry.giving_describes {r : Registry} {log : σ → List Call} {c : Surroundings σ}
    {P : Element → Prop} (describes : (r.logging log).Describes c) (gives : c.Gives P) :
    (r.giving log P).Describes c :=
  describes.narrow
    (fun _ _ text _ _ w tree w' sound hrun => ⟨_, rfl, gives text w tree w' sound hrun⟩)
    fun _ _ h => absurd h Registry.reads_ne_error

theorem Registry.ends_gathering {r : Registry} (templates : r.OfTemplates) {log : σ → List Call}
    {c : Surroundings σ} {P : Element → Prop} (describes : (r.logging log).Describes c)
    (gives : c.Gives P) {w : World σ} (sound : w.store.Sound) {root : NodeId}
    (start : ∀ n, w.store.Above root n → P (w.store.element n)) :
    ∃ w' es ls, Ends (fun l => resolveBelow (pure c) l root) w (.done (), w') ∧
      log w'.state = log w.state ++ es.map Event.call ∧
      r.Gathers {} (w.store.forest root) es ls ∧
      ls.map (Outline.map Gathered.shown) = w'.store.forest root ∧ Gathered.All P ls := by
  have reads : ∀ text t, (r.giving log P).reads text (.ok t) →
      ∀ e ∈ Outline.labels t.children, P e := by
    rintro text t ⟨t', ht, all⟩
    cases ht
    exact all
  obtain ⟨w', es, hends, _, settles, passes⟩ := Rules.resolveBelow_settles
    (Registry.giving_describes describes gives) ⟨sound, fun _ _ => trivial⟩
    (fun _ _ ⟨_, h, _⟩ => by cases h) root
  have hstart : ∀ a ∈ Outline.labels (w.store.forest root), P a.element := by
    intro a ha
    rw [← sound.linked.shows_forest.element_eq ha]
    exact start a.id (sound.linked.mem_forest_iff.mp (List.mem_map_of_mem ha))
  obtain ⟨ls, gathers, hshown, all⟩ := settles.gathers templates reads hstart
  have logged : (r.logging log).Passes es w w' := passes.of_changes fun _ _ _ h => h
  exact ⟨w', es, ls, hends, logged.log_eq, gathers, hshown, all⟩

/-- After a resolution, each attribute of a node below the root is no longer implied just if a
contributor of the node names it, or two of them have it. -/
theorem resolveBelow_promotes (r : Registry) (templates : r.OfTemplates) (log : σ → List Call)
    (c : Surroundings σ) (describes : (r.logging log).Describes c)
    (gives : c.Gives Element.WellNamed) (w : World σ) (sound : w.store.Sound) (root : NodeId)
    (named : ∀ n, w.store.Above root n → (w.store.element n).WellNamed) :
    ∃ k w' es ls, (∀ limits : Limits, k ≤ limits.depth → k ≤ limits.steps →
        (resolveBelow (pure c) limits root).run w = (.done (), w')) ∧
      log w'.state = log w.state ++ es.map Event.call ∧
      r.Gathers {} (w.store.forest root) es ls ∧
      ls.map (Outline.map Gathered.shown) = w'.store.forest root ∧
      ∀ l ∈ Outline.labels ls, ∀ x ∈ l.shown.element.attributes, x.implied = false ↔
        Element.Promote x.name (l.contributors.map Cell.element) := by
  obtain ⟨w', es, ls, ⟨k, hk⟩, hlog, gathers, hshown, all⟩ :=
    Registry.ends_gathering templates describes gives sound named
  exact ⟨k, w', es, ls, hk, hlog, gathers, hshown, fun l hl x hx =>
    Gathered.implied_iff (all l hl) hx⟩

theorem Surroundings.Gives.recording {c : Surroundings σ} {P : Element → Prop} (h : c.Gives P) :
    c.recording.Gives P := by
  rintro text ⟨s, a, calls⟩ tree w' sound hrun
  obtain ⟨v, hparse, hstore⟩ := exists_of_recording hrun
  rw [hstore]
  exact h text ⟨s, a⟩ tree v sound hparse

theorem Surroundings.Gives.planting {r : Registry} {trees : String → Except Fault (Outline Element)}
    {P : Element → Prop} (h : ∀ text t, trees text = .ok t →
      ∀ e ∈ Outline.labels (t.map Element.planted).children, P e) :
    (Surroundings.planting r trees : Surroundings σ).Gives P := by
  intro text w tree w' sound hrun
  obtain ⟨t, ht, _, hdocument⟩ := exists_of_planting sound hrun
  rw [hdocument]
  exact h text t ht

/-- An element with an implied attribute. -/
def Element.placeholder (name : String) : Element where
  name := some name
  attributes := [{ name := "src", implied := true }]

/-- A snippet `x` whose template is `y[!src]`, and a snippet `y` whose template is `img[!src]`. -/
def Plan.placeholding : Plan where
  registry := ⟨(Keyed.insert ∅ "x" { serial := 0, body := .template "y[!src]" }).insert "y"
    { serial := 1, body := .template "img[!src]" }⟩
  tree := fun text => .node {} [.node (.placeholder (if text = "y[!src]" then "y" else "img")) []]
  rewrite := fun _ e => e

namespace Plan.placeholding

/-- The surroundings that read the templates of the plan, with a record of their calls. -/
def surroundings : Surroundings (Unit × List Call) :=
  (Surroundings.planting placeholding.registry fun text => .ok (placeholding.tree text)).recording

theorem ofTemplates : placeholding.registry.OfTemplates :=
  (Registry.ofTemplates_empty.insert "x" 0 "y[!src]").insert "y" 1 "img[!src]"

theorem describes : (placeholding.registry.logging Prod.snd).Describes surroundings :=
  Surroundings.recording_describes (σ := Unit) ofTemplates
    (Surroundings.planting_describes (fun _ => ⟨_, rfl⟩) (fun _ _ => rfl) fun _ _ => trivial)

/-- The attributes are well named, and all of them are implied. -/
def Unnamed (e : Element) : Prop := e.WellNamed ∧ ∀ a ∈ e.attributes, a.implied = true

theorem unnamed_placeholder (name : String) : Unnamed (.placeholder name) :=
  ⟨⟨by simp [Element.placeholder], by simp [Element.placeholder, Attribute.className]⟩,
    by simp [Element.placeholder]⟩

theorem gives : surroundings.Gives Unnamed := by
  refine .recording (.planting fun text t ht e he => ?_)
  cases ht
  cases List.mem_singleton.mp he
  exact unnamed_placeholder _

/-- Both templates name the attribute as a placeholder only, and yet it is promoted. -/
theorem expand_eq : placeholding.expand {} [.node { name := some "x" } []] =
    [.node { name := some "img", attributes := [{ name := "src" }] } []] := by
  let x : Snippet := { serial := 0, body := .template "y[!src]" }
  let y : Snippet := { serial := 1, body := .template "img[!src]" }
  have hx : placeholding.registry.due? {} { name := some "x" } = some x := by decide
  have hy : placeholding.registry.due? ⟨[x]⟩ (.placeholder "y") = some y := by decide
  have himg : placeholding.registry.due? ⟨[y, x]⟩ (.placeholder "img") = none := by decide
  rw [Plan.expand_replace hx rfl]
  change (Outline.graft (placeholding.expand ⟨[x]⟩ [.node (.placeholder "y") []]) _).map _ ++ _ = _
  rw [Plan.expand_replace hy rfl]
  change (Outline.graft ((Outline.graft (placeholding.expand ⟨[y, x]⟩
    [.node (.placeholder "img") []]) _).map _ ++ _) _).map _ ++ _ = _
  rw [Plan.expand_keep himg]
  simp only [Plan.expand_nil, Outline.graft, List.map_cons, List.map_nil, List.append_nil,
    Outline.relabel]
  rfl

end Plan.placeholding

theorem Store.forall_above {s : Store} (linked : s.WellLinked) {root : NodeId} {P : Element → Prop}
    (h : ∀ e ∈ Outline.labels (s.document root).children, P e) :
    ∀ n, s.Above root n → P (s.element n) := by
  intro n hn
  refine h _ ?_
  rw [← s.map_element_below root]
  exact List.mem_map_of_mem ((mem_below linked).mpr hn)

theorem Plan.placeholding.exists_start : ∃ (w : World (Unit × List Call)) (root : NodeId),
    w.store.Sound ∧ (w.store.document root).children = [.node { name := some "x" } []] ∧
    ∀ n, w.store.Above root n → Unnamed (w.store.element n) := by
  obtain ⟨w, root, sound, _, hdocument⟩ :=
    exists_world (.node {} [.node { name := some "x" } []]) ((), ([] : List Call))
  have hchildren : (w.store.document root).children = [.node { name := some "x" } []] := by
    rw [hdocument]
    rfl
  refine ⟨w, root, sound, hchildren, Store.forall_above sound.linked fun e he => ?_⟩
  rw [hchildren] at he
  cases List.mem_singleton.mp he
  exact ⟨⟨by simp, by simp⟩, by simp⟩

open Plan.placeholding in
/-- In `x`, the attribute of the node that comes of it is promoted just if two nodes have it. -/
theorem resolveBelow_promotes_placeholder :
    ∃ (w : World (Unit × List Call)) (root : NodeId),
      Plan.placeholding.registry.OfTemplates ∧
      (Plan.placeholding.registry.logging Prod.snd).Describes surroundings ∧
      surroundings.Gives Element.WellNamed ∧ w.store.Sound ∧
      (∀ n, w.store.Above root n → (w.store.element n).WellNamed) ∧
      (w.store.document root).children = [.node { name := some "x" } []] ∧
      ∃ k w' es ls, (∀ limits : Limits, k ≤ limits.depth → k ≤ limits.steps →
          (resolveBelow (pure surroundings) limits root).run w = (.done (), w')) ∧
        w'.state.2 = w.state.2 ++ es.map Event.call ∧
        Plan.placeholding.registry.Gathers {} (w.store.forest root) es ls ∧
        ls.map (Outline.map Gathered.shown) = w'.store.forest root ∧
        ∀ l ∈ Outline.labels ls, ∀ x ∈ l.shown.element.attributes, x.implied = false ↔
          Element.Promote x.name (l.contributors.map Cell.element) := by
  obtain ⟨w, root, sound, hchildren, start⟩ := exists_start
  have named : surroundings.Gives Element.WellNamed := fun text w tree w' sound hrun e he =>
    (gives text w tree w' sound hrun e he).1
  exact ⟨w, root, ofTemplates, describes, named, sound, fun n hn => (start n hn).1, hchildren,
    resolveBelow_promotes _ ofTemplates Prod.snd _ describes named w sound root fun n hn =>
      (start n hn).1⟩

/-- The attribute of the node that comes of `x` is promoted, though all nodes that contribute to it
have it as an implied one only. -/
theorem exists_promoted_unnamed :
    ∃ (w : World (Unit × List Call)) (root : NodeId) (k : Nat) (w' : World (Unit × List Call))
      (es : List Event) (ls : List (Outline Gathered)),
      w.store.Sound ∧ (w.store.document root).children = [.node { name := some "x" } []] ∧
      (∀ limits : Limits, k ≤ limits.depth → k ≤ limits.steps →
        (resolveBelow (pure Plan.placeholding.surroundings) limits root).run w = (.done (), w')) ∧
      Plan.placeholding.registry.Gathers {} (w.store.forest root) es ls ∧
      ls.map (Outline.map Gathered.shown) = w'.store.forest root ∧
      ∃ l ∈ Outline.labels ls, (∃ a ∈ l.shown.element.attributes, a.implied = false) ∧
        ∀ b ∈ l.contributors, ∀ a ∈ b.element.attributes, a.implied = true := by
  obtain ⟨w, root, sound, hchildren, start⟩ := Plan.placeholding.exists_start
  obtain ⟨w', es, ls, hends, _, gathers, hshown, all⟩ := Registry.ends_gathering
    Plan.placeholding.ofTemplates Plan.placeholding.describes Plan.placeholding.gives sound start
  -- the same run by the rules of the plan, which tell what comes of `x`
  have describes : (Plan.placeholding.rules Unit).recorded.Describes
      Plan.placeholding.surroundings :=
    Rules.Describes.recording Plan.placeholding.ofTemplates
      (Surroundings.planting_describes (fun _ => rfl) (fun _ _ => rfl) fun _ _ => trivial)
  obtain ⟨w'', _, hends', _, settles, _⟩ := Rules.resolveBelow_settles describes
    ⟨sound, fun _ _ => trivial⟩ (fun _ _ h => by cases h) root
  obtain rfl := hends.unique hends'
  have fits : Plan.placeholding.Fits (Plan.placeholding.rules Unit).recorded :=
    ⟨rfl, fun _ _ h => (Except.ok.inj h).symm, rfl⟩
  have hmap := Plan.map_of_settles fits settles
  rw [← sound.linked.children_document, hchildren, Plan.placeholding.expand_eq] at hmap
  have himg : ({ name := some "img", attributes := [{ name := "src" }] } : Element) ∈
      Outline.labels ((w'.store.forest root).map (Outline.map Cell.element)) := by
    rw [hmap]
    decide
  rw [← hshown, Outline.labels_map, Outline.labels_map, List.map_map] at himg
  obtain ⟨l, hl, helement⟩ := List.mem_map.mp himg
  obtain ⟨k, hk⟩ := hends
  refine ⟨w, root, k, w', es, ls, sound, hchildren, hk, gathers, hshown, l, hl, ?_, fun b hb =>
    (all l hl b hb).2⟩
  have hshown' : l.shown.element = { name := some "img", attributes := [{ name := "src" }] } :=
    helement
  rw [hshown']
  exact ⟨_, List.mem_singleton_self _, rfl⟩

end SnippetTree
