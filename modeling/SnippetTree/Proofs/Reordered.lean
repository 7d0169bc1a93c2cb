import SnippetTree.Proofs.Exchanged
import SnippetTree.Proofs.Refinement

namespace SnippetTree

open Cell Outline Resolution

variable {σ : Type}

/-- A registered node below `root` with no other one between it and `root`. -/
structure Store.Topmost (r : Registry) (s : Store) (root n : NodeId) : Prop where
  above : s.Above root n
  matched : r.matched (s.element n) = true
  clear : ∀ m, s.Above root m → s.Above m n → r.matched (s.element m) = false

theorem Store.WellLinked.not_above_child {s : Store} {root n m : NodeId} (linked : s.WellLinked)
    (hp : (s.links n).parent = some root) (hm : s.Above root m) : ¬s.Above m n := by
  intro h
  rcases (Store.above_iff_of_parent hp).mp h with rfl | h
  · exact linked.acyclic m hm
  · exact linked.acyclic m (h.trans hm)

namespace Store

variable {r : Registry} {s : Store} {root n m : NodeId}

theorem Topmost.attached (h : s.Topmost r root n) : ∃ p, (s.links n).parent = some p := by
  obtain ⟨p, _, hp⟩ := Relation.TransGen.tail'_iff.mp h.above
  exact ⟨p, hp⟩

theorem Topmost.apart (h : s.Topmost r root n) (h' : s.Topmost r root m) (hne : n ≠ m) :
    s.Apart n m := by
  refine ⟨hne, fun ha => ?_, fun ha => ?_⟩
  · cases (h'.clear n h.above ha).symm.trans h.matched
  · cases (h.clear m h'.above ha).symm.trans h'.matched

theorem WellLinked.topmost_child (linked : s.WellLinked) (hp : (s.links n).parent = some root)
    (matched : r.matched (s.element n) = true) : s.Topmost r root n :=
  ⟨.single hp, matched, fun _ hm hmn => absurd hmn (linked.not_above_child hp hm)⟩

end Store

namespace Rules

variable {ρ : Rules σ} {c : Surroundings σ} {w : World σ} {p : NodeId} {before after : List NodeId}
  {a : Cell} {cs ts us : List (Outline Cell)}

/-- What the resolution of one node makes of its tree: the tree stays, unless the node has a
snippet. -/
inductive Turns (ρ : Rules σ) : Outline Cell → List (Outline Cell) → Prop
  | stays {a : Cell} {cs : List (Outline Cell)} (unmatched : ρ.registry.matched a.element = false) :
      Turns ρ (.node a cs) [.node a cs]
  | goes {a : Cell} {cs us : List (Outline Cell)} {es : List Event}
      (matched : ρ.registry.matched a.element = true) (settles : ρ.Settles {} [.node a cs] es us) :
      Turns ρ (.node a cs) us

/-- The resolution of a node exchanges its tree. -/
theorem resolveAt_exchanges (describes : ρ.Describes c)
    (templates : ∀ x, ρ.registry.due? {} a.element = some x → ∃ text, x.body = .template text)
    (reads : ∀ text e, ¬ρ.reads text (.error e)) (begun : ρ.account.Begun w.store)
    (stands : w.store.Stands a cs p before after) :
    ∃ w' us, Ends (resolveAt c · a.id) w (.done (), w') ∧ ρ.account.Begun w'.store ∧
      ρ.Turns (.node a cs) us ∧ w.store.Exchanged w'.store a cs p before after us := by
  let w₁ : World σ := { w with store := Edit.addGuard.apply w.store }
  have frame₁ := Account.frame_addGuard w.store
  have ready : ρ.account.Ready w.store.freshGuard {} w₁.store := begun.addGuard
  have hguard : (Script.newGuard : Script σ Empty GuardId).run w =
    (.done w.store.freshGuard, w₁) := rfl
  have stands₁ : w₁.store.Stands a cs p before after :=
    stands.of_frame frame₁ ready.sound.linked (by simp) (by simp)
  cases matched : ρ.registry.matched a.element with
  | false =>
    have due : ρ.registry.due? {} a.element = none := Registry.due?_of_unmatched matched
    rw [← stands₁.element] at due
    obtain ⟨w₂, hends, rests, guards, _⟩ := ends_of_not_due describes.depicts ready.guard due
    have frame := frame₁.trans (rests.frame guards)
    have hends' : Ends (resolveAt c · a.id) w (.done (), w₂) := .step hguard hends
    have sound₂ := hends'.sound begun.sound
    have stands₂ := stands.of_frame frame sound₂.linked (by simp) (by simp)
    exact ⟨w₂, _, hends', Account.Begun.steady.keeps _ _ _ _ begun frame sound₂, .stays matched,
      frame.mono (by simp) (by simp), stands₂.shown, fun m hm => Or.inl hm, stands₂.children⟩
  | true =>
    obtain ⟨x, due⟩ := Registry.due?_of_matched matched
    obtain ⟨text, body⟩ := templates x due
    obtain ⟨out, w₂, us, hends, _, reached⟩ := reaches_replace describes.depicts
      (fun g us => describes.follows.walks_under _ g us) (describes.follows.walks_under {} _ cs) ready
      stands₁ due body
    have frame := frame₁.trans reached.frame
    cases reached.yields with
    | failed stops => exact absurd stops (not_stops_of_reads reads)
    | done settles _ =>
      have hends' : Ends (resolveAt c · a.id) w (.done (), w₂) := .step hguard hends
      have sound₂ := hends'.sound begun.sound
      exact ⟨w₂, us, hends', Account.Begun.steady.keeps _ _ _ _ begun frame sound₂, .goes matched settles,
        frame, reached.shown, reached.origin, reached.children⟩

/-- The resolutions of nodes that are apart from each other, one after the other, exchange all their
trees. -/
theorem forM_exchanges (describes : ρ.Describes c) (templates : ρ.registry.OfTemplates)
    (reads : ∀ text e, ¬ρ.reads text (.error e)) (ns : List NodeId) (begun : ρ.account.Begun w.store)
    (attached : ∀ n ∈ ns, ∃ p, (w.store.links n).parent = some p)
    (apart : ns.Pairwise w.store.Apart) :
    ∃ w' f, Ends (fun l => ns.forM (resolveAt c l)) w (.done (), w') ∧ w'.store.Sound ∧
      (∀ n ∉ ns, f n = none) ∧ (∀ n ∈ ns, ∃ us, f n = some us ∧ ρ.Turns (w.store.cells n) us) ∧
      ∀ root ∈ w.store, (∀ n ∈ ns, w.store.Outside n root) →
        w'.store.forest root = exchange f (w.store.forest root) ∧
        w'.store.element root = w.store.element root := by
  induction ns generalizing w with
  | nil =>
    refine ⟨w, fun _ => none, .of_run rfl, begun.sound, fun _ _ => rfl, by simp,
      fun root _ _ => ⟨?_, rfl⟩⟩
    exact (exchange_eq_self fun _ _ => rfl).symm
  | cons n ns ih =>
    obtain ⟨hapart, hpairs⟩ := List.pairwise_cons.mp apart
    obtain ⟨p, hp⟩ := attached n List.mem_cons_self
    have linked := begun.sound.linked
    obtain ⟨before, after, stands⟩ := Store.Stands.of_parent linked hp
    obtain ⟨w₁, us, hends, begun₁, turns, exchanged⟩ :=
      resolveAt_exchanges describes (fun _ => templates.body) reads begun stands
    have linked₁ := begun₁.sound.linked
    -- the other nodes, their trees and what they are above stay as they are
    have hsame : ∀ m ∈ ns, m ∈ w.store ∧ (∃ q, (w₁.store.links m).parent = some q) ∧
        w₁.store.cells m = w.store.cells m ∧ ∀ k, w₁.store.Above m k ↔ w.store.Above m k := by
      intro m hm
      obtain ⟨q, hq⟩ := attached m (List.mem_cons_of_mem _ hm)
      obtain ⟨hparent, hcells⟩ := exchanged.stands_apart stands linked₁ hq (hapart m hm)
      exact ⟨Store.mem_of_parent hq, ⟨q, hparent⟩, hcells,
        exchanged.above_apart stands linked₁ hq (hapart m hm)⟩
    have habove : ∀ m ∈ ns, ∀ k, w₁.store.Above m k ↔ w.store.Above m k := fun m hm =>
      (hsame m hm).2.2.2
    obtain ⟨w₂, f, hends', sound₂, hnone, hsome, hroots⟩ := ih begun₁
      (fun m hm => (hsame m hm).2.1) (hpairs.imp_of_mem fun hm hk h =>
        ⟨h.1, (habove _ hm _).not.mpr h.2.1, (habove _ hk _).not.mpr h.2.2⟩)
    have hnot : n ∉ ns := fun hm => (hapart n hm).1 rfl
    have hus : ∀ m ∈ ids us, f m = none := fun m hm => hnone m fun hm' =>
      exchanged.not_mem_of_apart stands (hsame m hm').1 (hapart m hm') hm
    refine ⟨w₂, Function.update f n (some us), hends.bind hends', sound₂, fun m hm => ?_,
      fun m hm => ?_, fun root held out => ?_⟩
    · rw [List.mem_cons, not_or] at hm
      rw [Function.update_of_ne hm.1]
      exact hnone m hm.2
    · rcases List.mem_cons.mp hm with rfl | hrest
      · exact ⟨us, Function.update_self .., stands.cells_eq ▸ turns⟩
      · obtain ⟨vs, hvs, turns'⟩ := hsome m hrest
        have hne : m ≠ n := by
          rintro rfl
          exact hnot hrest
        refine ⟨vs, ?_, (hsame m hrest).2.2.1 ▸ turns'⟩
        rw [Function.update_of_ne hne, hvs]
    · have hout := out n List.mem_cons_self
      obtain ⟨hf, he⟩ := hroots root (exchanged.frame.held root held) fun m hm =>
        ⟨(out m (by simp [hm])).1, (habove m hm root).not.mpr (out m (by simp [hm])).2⟩
      rw [hf, he, exchanged.forest_eq stands linked₁ held hout, exchange_exchange hus,
        exchanged.element_eq stands held hout]
      exact ⟨rfl, rfl⟩

theorem settles_exchange {f : NodeId → Option (List (Outline Cell))} {root : NodeId}
    (linked : w.store.WellLinked) (shown : w.store.Shows ts)
    (hnone : ∀ n, w.store.Above root n → ρ.registry.matched (w.store.element n) = false → f n = none)
    (hsome : ∀ n, w.store.Topmost ρ.registry root n →
      ∃ us, f n = some us ∧ ρ.Turns (w.store.cells n) us)
    (clear : ∀ r ∈ roots ts, w.store.Above root r ∧ ∀ m, w.store.Above root m →
      w.store.Above m r → ρ.registry.matched (w.store.element m) = false) :
    ∃ es, ρ.Settles {} ts es (exchange f ts) := by
  induction shown with
  | nil => exact ⟨[], .nil⟩
  | @cons a cs ts element children below rest ihc iht =>
    obtain ⟨hroot, hclear⟩ := clear a.id (by simp)
    obtain ⟨rest', hrest⟩ := iht fun r hr => clear r (by simp [hr])
    cases matched : ρ.registry.matched a.element with
    | true =>
      rw [← element] at matched
      obtain ⟨us, hus, turns⟩ := hsome a.id ⟨hroot, matched, hclear⟩
      rw [below.cells_eq linked children, element] at turns
      rw [exchange_cons_of_some hus]
      cases turns with
      | stays unmatched => rw [element, unmatched] at matched; cases matched
      | goes _ settles => exact ⟨_, settles.append hrest⟩
    | false =>
      have due : ρ.registry.due? {} a.element = none := Registry.due?_of_unmatched matched
      rw [← element] at matched
      obtain ⟨own, hown⟩ := ihc fun r hr => by
        have hp := linked.mem_children.mp (children ▸ hr)
        refine ⟨hroot.tail hp, fun m hm hmr => ?_⟩
        rcases (Store.above_iff_of_parent hp).mp hmr with rfl | hma
        · exact matched
        · exact hclear m hm hma
      rw [exchange_cons_of_none (hnone a.id hroot matched)]
      exact ⟨_, .keep due hown hrest⟩

theorem Turns.similar {R : Cell → Cell → Prop} (respect : ρ.Respect ρ R) (refl : ∀ a, R a a)
    {t : Outline Cell} {us us' : List (Outline Cell)} (h : ρ.Turns t us) (h' : ρ.Turns t us') :
    Similar R us us' := by
  cases h with
  | stays unmatched =>
    cases h' with
    | stays => exact similar_refl refl _
    | goes matched => cases matched.symm.trans unmatched
  | goes matched settles =>
    cases h' with
    | stays unmatched => cases matched.symm.trans unmatched
    | goes _ settles' => exact settles.similar respect settles' (similar_refl refl _)

end Rules

/-- A node as it looks to one who knows the nodes of a store: those born later have no identity. -/
def Cell.seen (s₀ : Store) (a : Cell) : Option NodeId × Element :=
  (if a.id ∈ s₀ then some a.id else none, a.element)

/-- The subtree of a node as it looks to one who knows the nodes of `s₀`. -/
def Store.seen (s₀ s : Store) (root : NodeId) : Outline (Option NodeId × Element) :=
  (s.cells root).map (Cell.seen s₀)

theorem Store.WellLinked.seen_eq {s₀ s : Store} {root : NodeId} (linked : s.WellLinked) :
    s₀.seen s root = .node (Cell.seen s₀ ⟨root, s.element root⟩)
      ((s.forest root).map (Outline.map (Cell.seen s₀))) := by
  rw [Store.seen, linked.shows_forest.cells_eq linked linked.children_eq_forest, map_node]

namespace Plan

variable {plan : Plan} {c : Surroundings σ} {w : World σ}

/-- What a plan's rules say from a store on, in which the nodes of templates are not yet. -/
def rulesFrom (plan : Plan) (σ : Type) (s₀ : Store) : Rules σ :=
  { plan.rules σ with fresh := fun n => n ∉ s₀ }

theorem describes_from (describes : (plan.rules σ).Describes c) (s₀ : Store) :
    (plan.rulesFrom σ s₀).Describes c :=
  ⟨describes.lookup, describes.parse, describes.handle⟩

theorem not_reads_error {s₀ : Store} (text : String) (e : Fault) :
    ¬(plan.rulesFrom σ s₀).reads text (.error e) := by
  intro h
  cases h

theorem respect_seen (templates : plan.registry.OfTemplates) (s₀ : Store) :
    (plan.rulesFrom σ s₀).Respect (plan.rulesFrom σ s₀) fun a b => a.seen s₀ = b.seen s₀ where
  registry := rfl
  templates := templates
  due := by
    intro a b g h
    have helement : a.element = b.element := congrArg Prod.snd h
    rw [helement]
  give := by
    intro a b c d hab hcd
    have hgiven : a.element = b.element := congrArg Prod.snd hab
    have hid := congrArg Prod.fst hcd
    have hown : c.element = d.element := congrArg Prod.snd hcd
    refine Prod.ext hid ?_
    show c.element.merge a.element = d.element.merge b.element
    rw [hgiven, hown]
  read := by
    intro text top top' us us' _ read read' fresh fresh'
    have hshown : us.map (Outline.map Cell.element) = us'.map (Outline.map Cell.element) := by
      have hsame := Except.ok.inj (read.trans read'.symm)
      exact congrArg Outline.children hsame
    have hnew : ∀ vs : List (Outline Cell), (∀ n ∈ ids vs, n ∉ s₀) →
        vs.map (Outline.map (Cell.seen s₀)) =
          (vs.map (Outline.map Cell.element)).map (Outline.map (Prod.mk none)) := by
      intro vs hvs
      rw [map_map_forest]
      refine map_forest_congr fun a ha => ?_
      rw [Cell.seen, if_neg (hvs a.id (List.mem_map_of_mem ha))]
    rw [← map_eq_map_iff, hnew us fresh, hnew us' fresh', hshown]

theorem forM_perm (templates : plan.registry.OfTemplates) (describes : (plan.rules σ).Describes c)
    (sound : w.store.Sound) {ns ns' : List NodeId} (perm : ns.Perm ns')
    (attached : ∀ n ∈ ns, ∃ p, (w.store.links n).parent = some p)
    (apart : ns.Pairwise w.store.Apart) :
    ∃ w₁ w₂, Ends (fun l => ns.forM (resolveAt c l)) w (.done (), w₁) ∧
      Ends (fun l => ns'.forM (resolveAt c l)) w (.done (), w₂) ∧
      ∀ root ∈ w.store, (∀ n ∈ ns, w.store.Outside n root) →
        w.store.seen w₁.store root = w.store.seen w₂.store root := by
  have describes' := describes_from describes w.store
  have begun : (plan.rulesFrom σ w.store).account.Begun w.store := ⟨sound, fun _ hn => hn⟩
  have respect := respect_seen (σ := σ) templates w.store
  obtain ⟨w₁, f, hends, sound₁, hnone, hsome, hroots⟩ :=
    Rules.forM_exchanges describes' templates not_reads_error ns begun attached apart
  obtain ⟨w₂, f', hends', sound₂, hnone', hsome', hroots'⟩ :=
    Rules.forM_exchanges describes' templates not_reads_error ns' begun
      (fun n hn => attached n (perm.mem_iff.mpr hn))
      (perm.pairwise apart fun h => h.symm)
  have hsame : ∀ n, Option.Rel (Similar fun a b => a.seen w.store = b.seen w.store) (f n) (f' n) := by
    intro n
    by_cases hn : n ∈ ns
    · obtain ⟨us, hus, turns⟩ := hsome n hn
      obtain ⟨us', hus', turns'⟩ := hsome' n (perm.mem_iff.mp hn)
      rw [hus, hus']
      exact .some (turns.similar respect (fun _ => rfl) turns')
    · rw [hnone n hn, hnone' n fun hn' => hn (perm.mem_iff.mpr hn')]
      exact .none
  refine ⟨w₁, w₂, hends, hends', fun root held out => ?_⟩
  obtain ⟨hforest, helement⟩ := hroots root held out
  obtain ⟨hforest', helement'⟩ := hroots' root held fun n hn => out n (perm.mem_iff.mpr hn)
  have hexchange := similar_exchange (R := fun a b : Cell => a.seen w.store = b.seen w.store)
    (fun _ => rfl) hsame (w.store.forest root)
  rw [sound₁.linked.seen_eq, sound₂.linked.seen_eq, hforest, hforest', helement, helement',
    map_eq_map_iff.mpr hexchange]

/-- The topmost registered nodes below a root give what the resolution of all below it gives. -/
theorem forM_topmost (templates : plan.registry.OfTemplates)
    (describes : (plan.rules σ).Describes c) (sound : w.store.Sound) {root : NodeId}
    (held : root ∈ w.store) {ns : List NodeId} (nodup : ns.Nodup)
    (topmost : ∀ n, n ∈ ns ↔ w.store.Topmost plan.registry root n) :
    ∃ w₁ w₂, Ends (fun l => ns.forM (resolveAt c l)) w (.done (), w₁) ∧
      Ends (fun l => resolveBelow (pure c) l root) w (.done (), w₂) ∧
      w.store.seen w₁.store root = w.store.seen w₂.store root := by
  have linked := sound.linked
  have describes' := describes_from describes w.store
  have begun : (plan.rulesFrom σ w.store).account.Begun w.store := ⟨sound, fun _ hn => hn⟩
  have shown : w.store.Shows (w.store.forest root) := linked.shows_forest
  have children : w.store.children root = roots (w.store.forest root) := linked.children_eq_forest
  have attached : ∀ n ∈ ns, ∃ p, (w.store.links n).parent = some p := fun n hn =>
    ((topmost n).mp hn).attached
  have apart : ns.Pairwise w.store.Apart := nodup.imp_of_mem fun hn hm hne =>
    ((topmost _).mp hn).apart ((topmost _).mp hm) hne
  have out : ∀ n ∈ ns, w.store.Outside n root := fun n hn =>
    linked.outside_of_above ((topmost n).mp hn).above
  obtain ⟨w₁, f, hends, sound₁, hnone, hsome, hroots⟩ :=
    Rules.forM_exchanges describes' templates not_reads_error ns begun attached apart
  obtain ⟨hforest, helement⟩ := hroots root held out
  obtain ⟨es, settles⟩ := Rules.settles_exchange linked shown
    (fun n _ hn => hnone n fun hmem => by cases hn.symm.trans ((topmost n).mp hmem).matched)
    (fun n hn => hsome n ((topmost n).mpr hn))
    (fun r hr => by
      have hp := Store.Shows.parent linked children r hr
      exact ⟨.single hp, fun m hm hmr => absurd hmr (linked.not_above_child hp hm)⟩)
  obtain ⟨result, w₂, ts', hends', sound₂, reached⟩ :=
    Rules.resolveBelow_reaches describes' begun shown children
  cases reached.yields with
  | failed stops => exact absurd stops (Rules.not_stops_of_reads not_reads_error)
  | done settles' _ =>
    have hforest' : w₂.store.forest root = ts' :=
      reached.shown.forest_eq sound₂.linked (by simpa using reached.children)
    have helement' : w₂.store.element root = w.store.element root :=
      reached.frame.element root held (shown.not_mem_ids linked children)
    have hsame := settles.similar (respect_seen templates w.store) settles'
      (similar_refl (R := fun a b : Cell => a.seen w.store = b.seen w.store) (fun _ => rfl) _)
    refine ⟨w₁, w₂, hends, hends', ?_⟩
    rw [sound₁.linked.seen_eq, sound₂.linked.seen_eq, hforest, hforest', helement, helement',
      map_eq_map_iff.mpr hsame]

end Plan

/-- Where all snippets are templates and each is read to the same tree every time, resolving the
topmost registered nodes below a root, one by one and in any order, gives what the resolution of all
below the root gives, but for the identity of new nodes. And any two attached nodes that are apart
from each other, be they next to each other or not, may be resolved in either order. -/
theorem resolveAt_reorders (plan : Plan) (templates : plan.registry.OfTemplates)
    (c : Surroundings σ) (describes : (plan.rules σ).Describes c) (w : World σ)
    (sound : w.store.Sound) :
    (∀ root ∈ w.store, ∀ ns : List NodeId, ns.Nodup →
      (∀ n, n ∈ ns ↔ w.store.Topmost plan.registry root n) →
      ∃ k w₁ w₂, (∀ limits : Limits, k ≤ limits.depth → k ≤ limits.steps →
          (ns.forM (resolveAt c limits)).run w = (.done (), w₁) ∧
          (resolveBelow (pure c) limits root).run w = (.done (), w₂)) ∧
        w.store.seen w₁.store root = w.store.seen w₂.store root) ∧
    ∀ a b, (w.store.links a).parent.isSome → (w.store.links b).parent.isSome → w.store.Apart a b →
      ∃ k w₁ w₂, (∀ limits : Limits, k ≤ limits.depth → k ≤ limits.steps →
          (do resolveAt c limits a; resolveAt c limits b).run w = (.done (), w₁) ∧
          (do resolveAt c limits b; resolveAt c limits a).run w = (.done (), w₂)) ∧
        ∀ root ∈ w.store, w.store.Outside a root → w.store.Outside b root →
          w.store.seen w₁.store root = w.store.seen w₂.store root := by
  refine ⟨fun root held ns nodup topmost => ?_, fun a b ha hb apart => ?_⟩
  · obtain ⟨w₁, w₂, hends, hends', hseen⟩ :=
      Plan.forM_topmost templates describes sound held nodup topmost
    obtain ⟨k, hk⟩ := hends.both hends'
    exact ⟨k, w₁, w₂, hk, hseen⟩
  · have attached : ∀ n ∈ [a, b], ∃ p, (w.store.links n).parent = some p := by
      simpa [Option.isSome_iff_exists] using And.intro ha hb
    obtain ⟨w₁, w₂, hends, hends', hseen⟩ := Plan.forM_perm templates describes sound
      (List.Perm.swap b a []) attached (by simpa using apart)
    have hpair : ∀ (l : Limits) (n m : NodeId), [n, m].forM (resolveAt c l) =
        (do resolveAt c l n; resolveAt c l m) := by
      intro l n m
      show (do resolveAt c l n; resolveAt c l m; pure PUnit.unit) = _
      simp
    simp only [hpair] at hends hends'
    obtain ⟨k, hk⟩ := hends.both hends'
    exact ⟨k, w₁, w₂, hk, fun root held houta houtb => hseen root held (by simp [houta, houtb])⟩

/-- Of the siblings `x` and `x>b` either may be resolved first, or both with all the tree. -/
theorem resolveAt_reorders_siblings :
    ∃ (c : Surroundings Unit) (w : World Unit) (root a b : NodeId),
      Plan.selfReferring.registry.OfTemplates ∧ (Plan.selfReferring.rules Unit).Describes c ∧
      w.store.Sound ∧ w.store.children root = [a, b] ∧ (w.store.document root).children =
        [.node { name := some "x", value := some "v" } [],
          .node { name := some "x" } [.node { name := some "b" } []]] ∧
      (∃ k w₁ w₂, (∀ limits : Limits, k ≤ limits.depth → k ≤ limits.steps →
          ([b, a].forM (resolveAt c limits)).run w = (.done (), w₁) ∧
          (resolveBelow (pure c) limits root).run w = (.done (), w₂)) ∧
        w.store.seen w₁.store root = w.store.seen w₂.store root) ∧
      ∃ k w₁ w₂, (∀ limits : Limits, k ≤ limits.depth → k ≤ limits.steps →
          (do resolveAt c limits a; resolveAt c limits b).run w = (.done (), w₁) ∧
          (do resolveAt c limits b; resolveAt c limits a).run w = (.done (), w₂)) ∧
        w.store.seen w₁.store root = w.store.seen w₂.store root := by
  obtain ⟨w, root, sound, held, hdocument⟩ := exists_world
    (.node {} [.node { name := some "x", value := some "v" } [],
      .node { name := some "x" } [.node { name := some "b" } []]]) ()
  have linked := sound.linked
  have templates : Plan.selfReferring.registry.OfTemplates :=
    Registry.ofTemplates_empty.insert "x" 0 "a>x"
  have describes : (Plan.selfReferring.rules Unit).Describes
      (.planting Plan.selfReferring.registry fun text => .ok (Plan.selfReferring.tree text)) :=
    Surroundings.planting_describes (fun text => rfl) (fun _ _ => rfl) fun _ _ => trivial
  have shown : w.store.Shows (w.store.forest root) := linked.shows_forest
  have children : w.store.children root = roots (w.store.forest root) := linked.children_eq_forest
  have hmem : ∀ m, m ∈ ids (w.store.forest root) ↔ w.store.Above root m := fun m =>
    linked.mem_forest_iff
  have hforest := (shown.document_eq linked children).symm.trans hdocument
  have hsame : Similar (fun a e => a.element = e) (w.store.forest root)
      [.node { name := some "x", value := some "v" } [],
        .node { name := some "x" } [.node { name := some "b" } []]] := by
    rw [← map_eq_map_iff (g := fun e => e)]
    exact congrArg Outline.children hforest
  generalize w.store.forest root = ts at shown children hmem hsame
  cases hsame with
  | @cons a _ _ _ _ _ ha none rest =>
  cases none
  cases rest with
  | @cons b _ _ _ _ _ hb below none =>
  cases none
  cases below with
  | @cons d _ _ _ _ _ hd none rest =>
  cases none
  cases rest
  have hpa : (w.store.links a.id).parent = some root := linked.mem_children.mp (by simp [children])
  have hpb : (w.store.links b.id).parent = some root := linked.mem_children.mp (by simp [children])
  have apart : w.store.Apart a.id b.id :=
    ⟨fun he => by simpa [he, children] using (linked.siblings root).nodup,
      linked.not_above_sibling hpa hpb, linked.not_above_sibling hpb hpa⟩
  have topmost : ∀ n, n ∈ [b.id, a.id] ↔ w.store.Topmost Plan.selfReferring.registry root n := by
    intro n
    constructor
    · intro hn
      rcases List.mem_pair.mp hn with rfl | rfl
      · exact linked.topmost_child hpb (by rw [shown.element_eq (by simp), hb]; decide)
      · exact linked.topmost_child hpa (by rw [shown.element_eq (by simp), ha]; decide)
    · intro h
      have hn := (hmem n).mpr h.above
      simp only [ids_cons, ids_nil, List.append_nil, List.nil_append, List.mem_cons,
        List.not_mem_nil, or_false] at hn
      rcases hn with rfl | rfl | rfl
      · simp
      · simp
      · have hmatched := h.matched
        rw [shown.element_eq (a := d) (by simp), hd] at hmatched
        cases hmatched
  obtain ⟨tops, pairs⟩ := resolveAt_reorders _ templates _ describes w sound
  refine ⟨_, w, root, a.id, b.id, templates, describes, sound, children, by rw [hdocument]; rfl,
    tops root held _ ?_ topmost, ?_⟩
  · simpa using apart.1.symm
  · obtain ⟨k, w₁, w₂, hk, hseen⟩ := pairs a.id b.id (by simp [hpa]) (by simp [hpb]) apart
    exact ⟨k, w₁, w₂, hk, hseen root held (linked.outside_of_above (.single hpa))
      (linked.outside_of_above (.single hpb))⟩

end SnippetTree
