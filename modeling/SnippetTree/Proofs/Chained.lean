import SnippetTree.Proofs.Gathered
import SnippetTree.Proofs.Layered
import SnippetTree.Proofs.Reordered

namespace SnippetTree

theorem Attribute.eq_of_find?_eq {as bs : List Attribute} (nodup : (as.map name).Nodup)
    (names : bs.map name = as.map name)
    (found : ∀ key, bs.find? (·.name = key) = as.find? (·.name = key)) : bs = as := by
  induction as generalizing bs with
  | nil => exact List.map_eq_nil_iff.mp names
  | cons a as ih =>
    obtain ⟨b, bs, rfl, hname, hnames⟩ := List.map_eq_cons_iff.mp names
    obtain rfl : b = a := by simpa [hname] using found a.name
    refine congrArg (b :: ·) (ih (List.nodup_cons.mp nodup).2 hnames fun key => ?_)
    by_cases hkey : key = b.name
    · rw [hkey, find?_eq_none_of_nodup nodup, find?_eq_none_of_nodup (by rwa [names])]
    · have h := found key
      rwa [find?_cons_name, find?_cons_name, if_neg hkey, if_neg hkey] at h

attribute [ext] Element

namespace Element

variable {e e' e'' g : Element} {gs : List Element}

theorem foldl_insertClass_insertClass (given classes : List String) (c : String) :
    (insertClass given c).foldl insertClass classes =
      insertClass (given.foldl insertClass classes) c := by
  by_cases hc : c = "" ∨ c ∈ given
  · have hmem : c = "" ∨ c ∈ given.foldl insertClass classes := by
      rw [foldl_insertClass]
      simp only [List.mem_append, List.mem_eraseDups, List.mem_filter, decide_eq_true_eq]
      grind
    rw [insertClass, if_pos hc, insertClass, if_pos hmem]
  · rw [insertClass, if_neg hc, List.foldl_append, List.foldl_cons, List.foldl_nil]

theorem foldl_insertClass_assoc (last given classes : List String) :
    (last.foldl insertClass given).foldl insertClass classes =
      last.foldl insertClass (given.foldl insertClass classes) := by
  induction last generalizing given with
  | nil => rfl
  | cons c last ih => rw [List.foldl_cons, ih, foldl_insertClass_insertClass, List.foldl_cons]

theorem attributes_merge_assoc (h : e.WellNamed) (h' : e'.WellNamed) (h'' : e''.WellNamed) :
    ((e.merge e').merge e'').attributes = (e.merge (e'.merge e'')).attributes := by
  have hleft := wellNamed_merge e e'
  have hright := wellNamed_merge e' e''
  refine Attribute.eq_of_find?_eq (wellNamed_merge e _).nodup ?_ fun key => ?_
  · rw [map_name_merge hleft h'', map_name_merge h h', map_name_merge h hright,
      map_name_merge h' h'', List.filter_append, List.filter_filter, List.append_assoc]
    have same : ∀ x, decide (x ∉ e.attributes.map Attribute.name ++
        (e'.attributes.map Attribute.name).filter (· ∉ e.attributes.map Attribute.name)) =
          (decide (x ∉ e.attributes.map Attribute.name) &&
            decide (x ∉ e'.attributes.map Attribute.name)) := by
      intro x
      simp only [List.mem_append, List.mem_filter, decide_eq_true_eq]
      grind
    simp only [same]
  · change ((e.merge e').merge e'').attribute? key = (e.merge (e'.merge e'')).attribute? key
    rw [attribute?_merge hleft h'', attribute?_merge h h', attribute?_merge h hright,
      attribute?_merge h' h'']
    cases e.attribute? key <;> cases e'.attribute? key <;> cases e''.attribute? key <;> rfl

/-- It does not matter which of two merges in a row comes first. -/
theorem merge_assoc (h : e.WellNamed) (h' : e'.WellNamed) (h'' : e''.WellNamed) :
    (e.merge e').merge e'' = e.merge (e'.merge e'') := by
  have classes : ((e.merge e').merge e'').classes = (e.merge (e'.merge e'')).classes := by
    rw [classes_merge (wellNamed_merge e e') h'', classes_merge h h',
      classes_merge h (wellNamed_merge e' e''), classes_merge h' h'', foldl_insertClass_assoc]
  exact Element.ext rfl (Option.or_assoc ..).symm (Bool.or_assoc ..).symm (Option.or_assoc ..).symm
    classes (attributes_merge_assoc h h' h'')

theorem merge_foldl_merge (h : e.WellNamed) (hg : g.WellNamed) (hgs : ∀ g ∈ gs, g.WellNamed) :
    e.merge (gs.foldl merge g) = (g :: gs).foldl merge e := by
  induction gs generalizing g with
  | nil => rfl
  | cons g' gs ih =>
    obtain ⟨hg', hrest⟩ := List.forall_mem_cons.mp hgs
    rw [List.foldl_cons, ih (wellNamed_merge g g') hrest, List.foldl_cons, ← merge_assoc h hg hg']
    rfl

end Element

/-- In which order the members of a row are merged: at each join, what was made of the outer part is
merged into what was made of the inner one. -/
inductive Schedule (α : Type) where
  | leaf (a : α)
  | join (inner outer : Schedule α)

namespace Schedule

variable {α β σ : Type}

/-- The members of the row, from the innermost on. -/
def leaves : Schedule α → List α
  | leaf a => [a]
  | join t u => t.leaves ++ u.leaves

def first : Schedule α → α
  | leaf a => a
  | join t _ => t.first

def map (f : α → β) : Schedule α → Schedule β
  | leaf a => leaf (f a)
  | join t u => join (t.map f) (u.map f)

/-- What becomes of the first element. -/
def element : Schedule Element → Element
  | leaf e => e
  | join t u => t.element.merge u.element

def script : Schedule NodeId → Script σ Empty Unit
  | leaf _ => pure ()
  | join t u => do
    t.script
    u.script
    Script.merge u.first t.first

theorem leaves_map (f : α → β) (t : Schedule α) : (t.map f).leaves = t.leaves.map f := by
  induction t with
  | leaf a => rfl
  | join t u iht ihu => rw [map, leaves, iht, ihu, leaves, List.map_append]

theorem map_congr {f g : α → β} {t : Schedule α} (h : ∀ a ∈ t.leaves, f a = g a) :
    t.map f = t.map g := by
  induction t with
  | leaf a => exact congrArg leaf (h a List.mem_cons_self)
  | join t u iht ihu =>
    obtain ⟨ht, hu⟩ := List.forall_mem_append.mp h
    rw [map, map, iht ht, ihu hu]

theorem exists_leaves_eq (t : Schedule α) : ∃ rest, t.leaves = t.first :: rest := by
  induction t with
  | leaf a => exact ⟨[], rfl⟩
  | join t u iht _ =>
    obtain ⟨rest, h⟩ := iht
    exact ⟨rest ++ u.leaves, by rw [leaves, h, List.cons_append, first]⟩

theorem first_mem_leaves (t : Schedule α) : t.first ∈ t.leaves := by
  obtain ⟨rest, h⟩ := t.exists_leaves_eq
  exact h ▸ List.mem_cons_self

theorem element_eq_foldl {e : Element} {es : List Element} (t : Schedule Element)
    (leaves : t.leaves = e :: es) (named : ∀ e ∈ t.leaves, e.WellNamed) :
    t.element = es.foldl Element.merge e := by
  induction t generalizing e es with
  | leaf a =>
    cases leaves
    rfl
  | join t u iht ihu =>
    obtain ⟨before, ht⟩ := t.exists_leaves_eq
    obtain ⟨after, hu⟩ := u.exists_leaves_eq
    have named' := List.forall_mem_append.mp named
    rw [Schedule.leaves, ht, hu, List.cons_append, List.cons.injEq] at leaves
    obtain ⟨rfl, rfl⟩ := leaves
    obtain ⟨hfirst, hbefore⟩ := List.forall_mem_cons.mp (ht ▸ named'.1)
    obtain ⟨hfirst', hafter⟩ := List.forall_mem_cons.mp (hu ▸ named'.2)
    rw [element, iht ht named'.1, ihu hu named'.2,
      Element.merge_foldl_merge (Element.foldl_merge "" hfirst hbefore).1 hfirst' hafter,
      List.foldl_append]

theorem exists_run_script {w : World σ} (t : Schedule NodeId) (sound : w.store.Sound)
    (nodup : t.leaves.Nodup) (held : ∀ n ∈ t.leaves, n ∈ w.store) :
    ∃ s', t.script.run w = (.done (), { w with store := s' }) ∧ (∀ m ∈ w.store, m ∈ s') ∧
      s'.element t.first = (t.map w.store.element).element ∧
      ∀ m ∈ w.store, m ∉ t.leaves → s'.element m = w.store.element m := by
  induction t generalizing w with
  | leaf n => exact ⟨w.store, rfl, fun _ hm => hm, rfl, fun _ _ _ => rfl⟩
  | join t u iht ihu =>
    obtain ⟨hnt, hnu, disjoint⟩ := List.nodup_append.mp nodup
    obtain ⟨ht, hu⟩ := List.forall_mem_append.mp held
    have apart : ∀ n ∈ u.leaves, n ∉ t.leaves := fun n hn hn' => disjoint n hn' n hn rfl
    have hfirst := t.first_mem_leaves
    have hfirst' := u.first_mem_leaves
    obtain ⟨s₁, hrun₁, held₁, made₁, others₁⟩ := iht sound hnt ht
    obtain ⟨s₂, hrun₂, held₂, made₂, others₂⟩ := ihu (w := { w with store := s₁ })
      (Script.sound_of_run sound hrun₁) hnu fun n hn => held₁ n (hu n hn)
    obtain ⟨s₃, hrun₃, drawn⟩ := Store.draws_merge (w := { w with store := s₂ })
      (Script.sound_of_run (Script.sound_of_run sound hrun₁) hrun₂)
      (held₂ _ (held₁ _ (hu _ hfirst'))) (held₂ _ (held₁ _ (ht _ hfirst)))
      (disjoint _ hfirst _ hfirst').symm
    refine ⟨s₃, (Script.run_bind_of_done hrun₁).trans ((Script.run_bind_of_done hrun₂).trans hrun₃),
      fun m hm => drawn.held m (held₂ m (held₁ m hm)), ?_, fun m hm hleaves => ?_⟩
    · have outer : s₂.element u.first = (u.map w.store.element).element := by
        rw [made₂, map_congr fun n hn => others₁ n (hu n hn) (apart n hn)]
      have inner : s₂.element t.first = (t.map w.store.element).element := by
        rw [← made₁]
        exact others₂ _ (held₁ _ (ht _ hfirst)) fun h => apart _ h hfirst
      rw [first, drawn.element, outer, inner]
      rfl
    · rw [leaves, List.mem_append, not_or] at hleaves
      have hne : m ≠ t.first := fun he => hleaves.1 (he ▸ hfirst)
      rw [drawn.others m (held₂ m (held₁ m hm)) hne, ← others₁ m hm hleaves.1]
      exact others₂ m (held₁ m hm) hleaves.2

/-- Two schedules of one row of nodes whose attributes are filed both succeed, and make the same of
the first node. -/
theorem exists_runs_script {w : World σ} (t t' : Schedule NodeId) (sound : w.store.Sound)
    (leaves : t'.leaves = t.leaves) (nodup : t.leaves.Nodup)
    (filed : ∀ n ∈ t.leaves, n ∈ w.store ∧ w.store.Filed n) :
    ∃ s s', t.script.run w = (.done (), { w with store := s }) ∧
      t'.script.run w = (.done (), { w with store := s' }) ∧
      t'.first = t.first ∧ s'.element t.first = s.element t.first := by
  obtain ⟨s, hrun, _, made, _⟩ := t.exists_run_script sound nodup fun n hn => (filed n hn).1
  obtain ⟨s', hrun', _, made', _⟩ := t'.exists_run_script sound (leaves ▸ nodup) fun n hn =>
    (filed n (leaves ▸ hn)).1
  obtain ⟨rest, ht⟩ := t.exists_leaves_eq
  obtain ⟨rest', ht'⟩ := t'.exists_leaves_eq
  obtain ⟨hfirst, rfl⟩ := List.cons.inj (ht'.symm.trans (leaves.trans ht))
  have named : ∀ e ∈ (t.map w.store.element).leaves, e.WellNamed := by
    rw [leaves_map]
    exact List.forall_mem_map.mpr fun n hn => (filed n hn).2.wellNamed
  have row : (t.map w.store.element).leaves =
      w.store.element t.first :: rest'.map w.store.element := by
    rw [leaves_map, ht, List.map_cons]
  have row' : (t'.map w.store.element).leaves = (t.map w.store.element).leaves := by
    rw [leaves_map, leaves_map, leaves]
  refine ⟨s, s', hrun, hrun', hfirst, ?_⟩
  rw [← hfirst, made', hfirst, made, element_eq_foldl _ row named,
    element_eq_foldl _ (row'.trans row) (row' ▸ named)]

end Schedule

theorem Gathered.element_shown {l : Gathered} (named : ∀ c ∈ l.contributors, c.element.WellNamed)
    {t : Schedule Cell} (leaves : t.leaves = l.contributors) :
    l.shown.element = (t.map Cell.element).element := by
  have row : (t.map Cell.element).leaves = l.first.element :: l.given.map Cell.element := by
    rw [Schedule.leaves_map, leaves, contributors, List.map_cons]
  rw [Schedule.element_eq_foldl _ row]
  · rfl
  · rw [Schedule.leaves_map, leaves]
    exact List.forall_mem_map.mpr named

/-- The elements that come together at one node, from the innermost on. An element without a
snippet to follow stays by itself; the only top of a template comes, with what comes together at it,
before the element whose snippet that is. -/
inductive Plan.Chain (plan : Plan) : Guard → Element → List Element → Prop
  | stop {g : Guard} {e : Element} (due : plan.registry.due? g e = none) : Chain plan g e [e]
  | step {g : Guard} {e top : Element} {s : Snippet} {text : String}
      {below : List (Outline Element)} {es : List Element}
      (due : plan.registry.due? g e = some s) (body : s.body = .template text)
      (tree : (plan.tree text).children = [.node top below])
      (rest : Chain plan (g.insert s) top es) : Chain plan g e (es ++ [e])

theorem Plan.Chain.expand {plan : Plan} {g : Guard} {e : Element} {es : List Element}
    (chain : plan.Chain g e es) (cs : List (Outline Element)) :
    ∃ first rest below, es = first :: rest ∧
      plan.expand g [.node e cs] = [.node (rest.foldl Element.merge first) below] := by
  induction chain generalizing cs with
  | @stop g e due =>
    exact ⟨e, [], plan.expand g cs, rfl, by rw [expand_keep due, expand_nil, List.foldl_nil]⟩
  | @step g e top s text below es due body tree _ ih =>
    obtain ⟨first, rest, below', rfl, hexpand⟩ := ih below
    refine ⟨first, rest ++ [e], Outline.graft below' (plan.expand g cs), rfl, ?_⟩
    rw [expand_replace due body, tree, hexpand, expand_nil, List.append_nil, List.foldl_append]
    simp only [Outline.graft, List.map_cons, List.map_nil, Outline.relabel, List.foldl_cons,
      List.foldl_nil]

theorem Plan.Chain.map_of_turns {σ : Type} {plan : Plan} {a : Cell} {cs us : List (Outline Cell)}
    {es : List Element} (chain : plan.Chain {} a.element es)
    (turns : (plan.rules σ).Turns (.node a cs) us) : ∃ first rest below, es = first :: rest ∧
      us.map (Outline.map Cell.element) = [.node (rest.foldl Element.merge first) below] := by
  cases turns with
  | stays unmatched =>
    have due := Registry.due?_of_unmatched (g := {}) unmatched
    cases chain with
    | stop => exact ⟨_, [], _, rfl, by rw [List.map_cons, List.map_nil, Outline.map_node]; rfl⟩
    | step due' => cases due.symm.trans due'
  | goes _ settles =>
    obtain ⟨first, rest, below, hes, hexpand⟩ := chain.expand (cs.map (Outline.map Cell.element))
    refine ⟨first, rest, below, hes, ?_⟩
    rw [map_of_settles fits_rules settles, List.map_cons, List.map_nil, Outline.map_node, hexpand]

/-- The resolution of a node that has a chain of templates puts one node in its place, which shows
what all schedules make of the chain. -/
theorem Plan.Chain.ends_resolveAt {σ : Type} {plan : Plan} {c : Surroundings σ} {w : World σ}
    {n p : NodeId} {es : List Element} (chain : plan.Chain {} (w.store.element n) es)
    (describes : (plan.rules σ).Describes c) (sound : w.store.Sound)
    (hp : (w.store.links n).parent = some p) (named : ∀ e ∈ es, e.WellNamed) :
    ∃ w' m before after, Ends (resolveAt c · n) w (.done (), w') ∧
      w.store.children p = before ++ n :: after ∧ w'.store.children p = before ++ m :: after ∧
      ∀ t : Schedule Element, t.leaves = es → w'.store.element m = t.element := by
  obtain ⟨before, after, stands⟩ := Store.Stands.of_parent sound.linked hp
  have templates : ∀ x, plan.registry.due? {} (w.store.element n) = some x →
      ∃ text, x.body = .template text := by
    intro x hx
    cases chain with
    | stop due => cases due.symm.trans hx
    | step due body => exact ⟨_, Option.some.inj (due.symm.trans hx) ▸ body⟩
  obtain ⟨w', us, hends, _, turns, exchanged⟩ := Rules.resolveAt_exchanges
    (a := ⟨n, w.store.element n⟩) describes templates (fun _ _ h => by cases h)
    ⟨sound, fun _ _ => trivial⟩ stands
  obtain ⟨first, rest, below, rfl, hus⟩ := chain.map_of_turns turns
  obtain ⟨⟨b, ds⟩, rfl, hb⟩ := List.map_eq_singleton_iff.mp hus
  have shown : w'.store.element b.id = rest.foldl Element.merge first := by
    rw [exchanged.shown.element_eq (a := b) (by simp)]
    rw [Outline.map_node, Outline.node.injEq] at hb
    exact hb.1
  have children : w'.store.children p = before ++ b.id :: after := by
    rw [exchanged.children, Cell.roots_cons, Cell.roots_nil]
    rfl
  exact ⟨w', b.id, before, after, hends, stands.children, children, fun t leaves =>
    shown.trans (t.element_eq_foldl leaves (leaves ▸ named)).symm⟩

/-- Where the attributes of nodes are filed, it does not matter which merges come first: of three
nodes, of any row of nodes, of a node and the chain of templates that stands for it, and of all that
contribute to what a node shows after the resolution of a tree. -/
theorem merges_in_any_order {σ : Type} (w : World σ) (sound : w.store.Sound) :
    (∀ b a u : NodeId, [b, a, u].Nodup → (∀ n ∈ [b, a, u], n ∈ w.store ∧ w.store.Filed n) →
      ∃ s s',
        (do Script.merge a b; Script.merge u b : Script σ Empty Unit).run w =
          (.done (), { w with store := s }) ∧
        (do Script.merge u a; Script.merge a b : Script σ Empty Unit).run w =
          (.done (), { w with store := s' }) ∧
        s'.element b = s.element b) ∧
    (∀ t t' : Schedule NodeId, t'.leaves = t.leaves → t.leaves.Nodup →
      (∀ n ∈ t.leaves, n ∈ w.store ∧ w.store.Filed n) →
      ∃ s s', t.script.run w = (.done (), { w with store := s }) ∧
        t'.script.run w = (.done (), { w with store := s' }) ∧
        t'.first = t.first ∧ s'.element t.first = s.element t.first) ∧
    (∀ (plan : Plan) (c : Surroundings σ) (n p : NodeId) (es : List Element),
      (plan.rules σ).Describes c → (w.store.links n).parent = some p →
      plan.Chain {} (w.store.element n) es → (∀ e ∈ es, e.WellNamed) →
      ∃ k w' m before after, (∀ limits : Limits, k ≤ limits.depth → k ≤ limits.steps →
          (resolveAt c limits n).run w = (.done (), w')) ∧
        w.store.children p = before ++ n :: after ∧ w'.store.children p = before ++ m :: after ∧
        ∀ t : Schedule Element, t.leaves = es → w'.store.element m = t.element) ∧
    (∀ (r : Registry) (log : σ → List Call) (c : Surroundings σ) (root : NodeId), r.OfTemplates →
      (r.logging log).Describes c → c.Gives Element.WellNamed →
      (∀ n, w.store.Above root n → (w.store.element n).WellNamed) →
      ∃ k w' es ls, (∀ limits : Limits, k ≤ limits.depth → k ≤ limits.steps →
          (resolveBelow (pure c) limits root).run w = (.done (), w')) ∧
        log w'.state = log w.state ++ es.map Event.call ∧
        r.Gathers {} (w.store.forest root) es ls ∧
        ls.map (Outline.map Gathered.shown) = w'.store.forest root ∧
        ∀ l ∈ Outline.labels ls, ∀ t : Schedule Cell, t.leaves = l.contributors →
          l.shown.element = (t.map Cell.element).element) := by
  refine ⟨fun b a u nodup filed => ?_, fun t t' leaves nodup filed =>
    Schedule.exists_runs_script t t' sound leaves nodup filed,
    fun plan c n p es describes hp chain named => ?_,
    fun r log c root templates describes gives named => ?_⟩
  · obtain ⟨s, s', hrun, hrun', _, same⟩ := Schedule.exists_runs_script
      (.join (.join (.leaf b) (.leaf a)) (.leaf u)) (.join (.leaf b) (.join (.leaf a) (.leaf u)))
      sound rfl nodup filed
    exact ⟨s, s', hrun, hrun', same⟩
  · obtain ⟨w', m, before, after, ⟨k, hk⟩, rest⟩ := chain.ends_resolveAt describes sound hp named
    exact ⟨k, w', m, before, after, hk, rest⟩
  · obtain ⟨w', es, ls, ⟨k, hk⟩, hlog, gathers, hshown, all⟩ :=
      Registry.ends_gathering templates describes gives sound named
    exact ⟨k, w', es, ls, hk, hlog, gathers, hshown, fun l hl t =>
      Gathered.element_shown (all l hl)⟩

theorem Store.exists_child {s : Store} (linked : s.WellLinked) {root : NodeId} {e : Element}
    {ts : List (Outline Element)} (h : (s.document root).children = [.node e ts]) :
    ∃ n, s.children root = [n] ∧ (s.links n).parent = some root ∧ s.element n = e := by
  rw [linked.children_document] at h
  obtain ⟨⟨b, ds⟩, hforest, hb⟩ := List.map_eq_singleton_iff.mp h
  rw [Outline.map_node, Outline.node.injEq] at hb
  have children : s.children root = [b.id] := by
    rw [linked.children_eq_forest, hforest, Cell.roots_cons, Cell.roots_nil]
  have top : b ∈ Outline.labels (s.forest root) := by rw [hforest]; simp
  have element : s.element b.id = b.element := linked.shows_forest.element_eq top
  exact ⟨b.id, children, linked.mem_children.mp (by rw [children]; simp), element.trans hb.1⟩

theorem Plan.placeholding.chain : Plan.placeholding.Chain {} { name := some "x" }
    [.placeholder "img", .placeholder "y", { name := some "x" }] := by
  let x : Snippet := { serial := 0, body := .template "y[!src]" }
  let y : Snippet := { serial := 1, body := .template "img[!src]" }
  have hx : placeholding.registry.due? {} { name := some "x" } = some x := by decide
  have hy : placeholding.registry.due? ⟨[x]⟩ (.placeholder "y") = some y := by decide
  have himg : placeholding.registry.due? ⟨[y, x]⟩ (.placeholder "img") = none := by decide
  exact .step hx rfl rfl (.step hy rfl rfl (.stop himg))

open Plan.placeholding in
/-- Three nodes have the placeholder `src`, and two of them `alt`. In `x`, a node comes of two
templates, one within the other. -/
theorem merges_in_any_order_placeholder :
    let making : Script Unit Empty Unit := do
      let src ← Script.newAttribute { name := "src", implied := true }
      let alt ← Script.newAttribute { name := "alt", value := some "t" }
      let title ← Script.newAttribute { name := "title", implied := true }
      let _ ← Script.newNode (some "img") none true none [src] ["x"]
      let _ ← Script.newNode (some "y") (some "") false none [alt, src] ["z", "x"]
      let _ ← Script.newNode (some "u") none false none [title, alt, src] ["v", "z"]
    let w : World Unit := (making.run { store := {}, state := () }).2
    w.store.Sound ∧ (∀ n ∈ [(⟨0⟩ : NodeId), ⟨1⟩, ⟨2⟩], n ∈ w.store ∧ w.store.Filed n) ∧
    (∃ s s',
      (do Script.merge ⟨1⟩ ⟨0⟩; Script.merge ⟨2⟩ ⟨0⟩ : Script Unit Empty Unit).run w =
        (.done (), { w with store := s }) ∧
      (do Script.merge ⟨2⟩ ⟨1⟩; Script.merge ⟨1⟩ ⟨0⟩ : Script Unit Empty Unit).run w =
        (.done (), { w with store := s' }) ∧
      s'.element ⟨0⟩ = s.element ⟨0⟩ ∧
      s.element ⟨0⟩ = {
        name := some "img", value := some "", selfClosing := true, classes := ["x", "z", "v"]
        attributes := [{ name := "src" }, { name := "alt", value := some "t" },
          { name := "title", implied := true }] }) ∧
    ∃ (w : World (Unit × List Call)) (root : NodeId) (k : Nat) (w' : World (Unit × List Call))
      (es : List Event) (ls : List (Outline Gathered)),
      w.store.Sound ∧ (w.store.document root).children = [.node { name := some "x" } []] ∧
      (∀ limits : Limits, k ≤ limits.depth → k ≤ limits.steps →
        (resolveBelow (pure surroundings) limits root).run w = (.done (), w')) ∧
      w'.state.2 = w.state.2 ++ es.map Event.call ∧
      Plan.placeholding.registry.Gathers {} (w.store.forest root) es ls ∧
      ls.map (Outline.map Gathered.shown) = w'.store.forest root ∧
      (∀ l ∈ Outline.labels ls, ∀ t : Schedule Cell, t.leaves = l.contributors →
        l.shown.element = (t.map Cell.element).element) ∧
      ∃ (c : Surroundings (Unit × List Call)) (n m : NodeId) (k : Nat)
        (w' : World (Unit × List Call)),
        (∀ limits : Limits, k ≤ limits.depth → k ≤ limits.steps →
          (resolveAt c limits n).run w = (.done (), w')) ∧
        w.store.children root = [n] ∧ w'.store.children root = [m] ∧
        w'.store.element m = { name := some "img", attributes := [{ name := "src" }] } := by
  intro making w
  have sound : w.store.Sound := Script.run_sound Store.sound_empty
  have filed : ∀ n ∈ [(⟨0⟩ : NodeId), ⟨1⟩, ⟨2⟩], n ∈ w.store ∧ w.store.Filed n := by decide +kernel
  obtain ⟨s, s', hrun, hrun', same⟩ :=
    (merges_in_any_order w sound).1 ⟨0⟩ ⟨1⟩ ⟨2⟩ (by decide) filed
  have shown := congrArg (fun out => out.2.store.element ⟨0⟩) hrun
  refine ⟨sound, filed, ⟨s, s', hrun, hrun', same, shown.symm.trans (by decide +kernel)⟩, ?_⟩
  obtain ⟨v, root, sound', hchildren, start⟩ := exists_start
  have named : surroundings.Gives Element.WellNamed := fun text w tree w' sound hrun e he =>
    (gives text w tree w' sound hrun e he).1
  obtain ⟨k, v', es, ls, ends, hlog, gathers, hshown, all⟩ := (merges_in_any_order v sound').2.2.2
    Plan.placeholding.registry Prod.snd surroundings root ofTemplates describes named fun n hn =>
      (start n hn).1
  refine ⟨v, root, k, v', es, ls, sound', hchildren, ends, hlog, gathers, hshown, all, ?_⟩
  obtain ⟨n, hn, hp, helement⟩ := Store.exists_child sound'.linked hchildren
  have reading : (Plan.placeholding.rules (Unit × List Call)).Describes
      (.planting Plan.placeholding.registry fun text => .ok (Plan.placeholding.tree text)) :=
    Surroundings.planting_describes (fun _ => rfl) (fun _ _ => rfl) fun _ _ => trivial
  have wellNamed : ∀ e ∈ [Element.placeholder "img", .placeholder "y", { name := some "x" }],
      e.WellNamed := by
    simp only [List.forall_mem_cons]
    exact ⟨(unnamed_placeholder _).1, (unnamed_placeholder _).1, ⟨by simp, by simp⟩, nofun⟩
  obtain ⟨k', v'', m, before, after, ends', hbefore, hafter, schedules⟩ :=
    (merges_in_any_order v sound').2.2.1 _ _ n root _ reading hp (helement ▸ chain) wellNamed
  obtain ⟨rfl, rfl⟩ : before = [] ∧ after = [] := by
    simpa [List.append_eq_singleton_iff] using hbefore.symm.trans hn
  refine ⟨_, n, m, k', v'', ends', hn, hafter, ?_⟩
  rw [schedules (.join (.leaf (.placeholder "img"))
    (.join (.leaf (.placeholder "y")) (.leaf { name := some "x" }))) rfl]
  decide

end SnippetTree
