import SnippetTree.Proofs.Walked
import SnippetTree.Script.Planting

namespace SnippetTree

open Cell

/-- What a new node shows that is made to show an element: class names and attributes are added one
by one, so that none comes twice. -/
def Element.planted (e : Element) : Element :=
  let shown := Element.withAttributes
    { name := e.name, value := e.value, selfClosing := e.selfClosing, repetition := e.repetition }
    e.attributes
  { shown with classes := e.classes.foldl insertClass shown.classes }

namespace Store

variable {σ : Type} {w : World σ} {s s' s'' : Store} {n m p c : NodeId} {e : Element}

namespace Extends

theorem refl (s : Store) : s.Extends s :=
  ⟨fun _ hm => hm, .refl s, fun _ _ => rfl, fun _ _ => rfl⟩

theorem trans (h : s.Extends s') (h' : s'.Extends s'') : s.Extends s'' where
  held := fun m hm => h'.held m (h.held m hm)
  guards := h.guards.trans h'.guards
  links := fun m hm => (h'.links m (h.held m hm)).trans (h.links m hm)
  element := fun m hm => (h'.element m (h.held m hm)).trans (h.element m hm)

theorem redrawn (h : s.Extends s') (hn : n ∉ s) (drawn : s'.Redrawn s'' n e) : s.Extends s'' where
  held := fun m hm => drawn.held m (h.held m hm)
  guards := h.guards.trans drawn.guards
  links := fun m hm => (drawn.links m).trans (h.links m hm)
  element := fun m hm =>
    (drawn.others m (h.held m hm) fun he => hn (he ▸ hm)).trans (h.element m hm)

end Extends

theorem Redrawn.extends (h : s.Redrawn s' n (s.element n)) : s.Extends s' where
  held := h.held
  guards := h.guards
  links := fun m _ => h.links m
  element := by
    intro m hm
    by_cases he : m = n
    · rw [he, h.element]
    · exact h.others m hm he

theorem extends_addNode {name value : Option String} {selfClosing : Bool}
    {repetition : Option RepetitionId} :
    s.Extends ((Edit.addNode name value selfClosing repetition).apply s) where
  held := by
    intro m hm
    simp only [mem_iff, Edit.apply, Array.size_push] at hm ⊢
    omega
  guards := .of_eq rfl
  links := fun m _ => links_addNode m
  element := by
    intro m hm
    have hne : m ≠ s.freshNode := by
      rintro rfl
      simp [mem_iff, freshNode] at hm
    have hd : ((Edit.addNode name value selfClosing repetition).apply s).data m = s.data m := by
      rw [data_addNode, if_neg hne]
    exact congrArg s.shown hd

theorem links_append_of_apart (linked : s.WellLinked) (hp : p ∈ s) (hc : c ∈ s)
    (detached : (s.links c).parent = none) (hmp : m ≠ p) (hmc : m ≠ c) (out : m ∉ s.children p) :
    (s.append p c).links m = s.links m := by
  have hsplit : (s.detach c).children p = s.children p ++ [] := by
    rw [detach_of_parent_eq_none detached, List.append_nil]
  rw [linked.append_eq_place, detach_of_parent_eq_none detached,
    linked.links_place hp hc (List.append_nil _).symm]
  have hlast : (s.children p).getLast? ≠ some m := getLast?_ne_of_not_mem out
  simp [hmp, hmc, hlast]

theorem parent_append (linked : s.WellLinked) (hp : p ∈ s) (hc : c ∈ s)
    (detached : (s.links c).parent = none) :
    ((s.append p c).links m).parent = if m = c then some p else (s.links m).parent := by
  rw [linked.append_eq_place, detach_of_parent_eq_none detached,
    linked.links_place hp hc (List.append_nil _).symm]

theorem run_mapM_newRepetition (grounded : w.store.Grounded) (repetition : Option Repetition) :
    ∃ r s', (repetition.mapM Script.newRepetition).run w = (.done r, { w with store := s' }) ∧
      w.store.Extends s' ∧ s'.nodes = w.store.nodes ∧ s'.attributes = w.store.attributes ∧
      (s'.held r).map s'.repetitionAt = repetition := by
  cases repetition with
  | none => exact ⟨none, w.store, rfl, .refl _, rfl, rfl, rfl⟩
  | some record =>
    have hdrawn := Redrawn.addRepetition grounded record w.store.freshNode
    refine ⟨some w.store.freshRepetition, (Edit.addRepetition record).apply w.store, rfl,
      hdrawn.extends, rfl, rfl, ?_⟩
    have hrecord : ((Edit.addRepetition record).apply w.store).repetitionAt
        w.store.freshRepetition = record := by rw [repetitionAt_addRepetition, if_pos rfl]
    have hfresh : ((Edit.addRepetition record).apply w.store).hasRepetition
        w.store.freshRepetition := by
      simp [hasRepetition, Edit.apply, freshRepetition]
    rw [held, Option.filter_some, if_pos hfresh, Option.map_some, hrecord]

theorem not_mem_freshNode (s : Store) : s.freshNode ∉ s := by
  simp [mem_iff, freshNode]

theorem run_newNode (name value : Option String) (selfClosing : Bool)
    (r : Option RepetitionId) (as : List AttributeId) (classes : List String)
    (held : ∀ a ∈ as, w.store.hasAttribute a) :
    ∃ s', (Script.newNode name value selfClosing r as classes).run w =
        (.done w.store.freshNode, { w with store := s' }) ∧ w.store.Extends s' ∧
      w.store.freshNode ∈ s' ∧ s'.links w.store.freshNode = {} ∧
      s'.element w.store.freshNode = Element.planted
        { name, value, selfClosing, classes,
          repetition := (w.store.held r).map w.store.repetitionAt
          attributes := as.map w.store.attributeAt } := by
  let n := w.store.freshNode
  let w₁ : World σ := { w with store := (Edit.addNode name value selfClosing r).apply w.store }
  have hn : n ∈ w₁.store := by simp [n, w₁, mem_iff, Edit.apply, freshNode]
  have hdata : w₁.store.data n = { name, value, selfClosing, repetition := w.store.held r } := by
    rw [data_addNode, if_pos rfl]
  have hlinks : w₁.store.links n = {} := by
    rw [links_addNode, links_of_not_mem w.store.not_mem_freshNode]
  obtain ⟨s₂, hset, drawn₂⟩ := draws_setAttributes (w := w₁) hn (by rw [hdata]) as held
  obtain ⟨s₃, hadd, drawn₃⟩ :=
    draws_addClasses (w := { w with store := s₂ }) (drawn₂.held n hn) classes
  have hextends : w.store.Extends s₃ := (extends_addNode.redrawn w.store.not_mem_freshNode
    drawn₂).redrawn w.store.not_mem_freshNode drawn₃
  refine ⟨s₃, ?_, hextends, drawn₃.held n (drawn₂.held n hn), ?_, ?_⟩
  · exact (Script.run_bind_of_done (Script.run_read ..)).trans
      ((Script.run_bind_of_done (Script.run_perform_of_none rfl)).trans
        ((Script.run_bind_of_done hset).trans (Script.run_bind_of_done hadd)))
  · rw [drawn₃.links, drawn₂.links, hlinks]
  · rw [drawn₃.element, drawn₂.element, element_eq_shown, hdata]
    rfl

theorem run_newElement (sound : w.store.Sound) (e : Element) :
    ∃ n s', (Script.newElement e).run w = (.done n, { w with store := s' }) ∧
      w.store.Extends s' ∧ n ∉ w.store ∧ n ∈ s' ∧ s'.links n = {} ∧ s'.element n = e.planted := by
  obtain ⟨as, s₁, hattributes, drawn₁, kept₁, hmap, hheld⟩ :=
    run_newAttributes sound.grounded w.store.freshNode e.attributes
  have sound₁ := Script.sound_of_run sound hattributes
  obtain ⟨r, s₂, hrepetition, extends₂, hnodes, hsame, hr⟩ :=
    run_mapM_newRepetition (w := { w with store := s₁ }) sound₁.grounded e.repetition
  have sound₂ := Script.sound_of_run sound₁ hrepetition
  have hat : s₂.attributeAt = s₁.attributeAt := by
    funext a
    rw [attributeAt, attributeAt, hsame]
  have hheld₂ : ∀ a ∈ as, s₂.hasAttribute a := by
    intro a ha
    rw [hasAttribute, hsame]
    exact hheld a ha
  obtain ⟨s₃, hnode, extends₃, hmem, hlinks, helement⟩ := run_newNode (w := { w with store := s₂ })
    e.name e.value e.selfClosing r as e.classes hheld₂
  have hextends : w.store.Extends s₂ := drawn₁.extends.trans extends₂
  refine ⟨s₂.freshNode, s₃, ?_, hextends.trans extends₃,
    fun hm => s₂.not_mem_freshNode (hextends.held _ hm), hmem, hlinks, ?_⟩
  · exact (Script.run_bind_of_done hattributes).trans ((Script.run_bind_of_done hrepetition).trans
      hnode)
  · have hrecords : as.map s₂.attributeAt = e.attributes := by rw [hat, hmap]
    rw [helement, hrecords, hr]

/-- From `s` to `s'`, the outlines `ts` were planted as the last children of `n`. -/
structure Plants (s s' : Store) (n : NodeId) (ts : List (Outline Element))
    (us : List (Outline Cell)) : Prop where
  frame : s.Frame s' [] [n]
  parents : ∀ m ∈ s, (s'.links m).parent = (s.links m).parent
  children : s'.children n = s.children n ++ roots us
  shown : s'.Shows us
  shows : us.map (Outline.map Cell.element) = ts.map (Outline.map Element.planted)
  fresh : ∀ m ∈ ids us, m ∉ s

/-- Outlines can be planted below any node that is new, with all its children, since some store. -/
def Plantable (σ : Type) (ts : List (Outline Element)) : Prop :=
  ∀ (w : World σ) (s : Store) (n : NodeId), w.store.Sound → s.Extends w.store → n ∈ w.store →
    n ∉ s → (∀ m ∈ w.store.children n, m ∉ s) →
    ∃ s' us, (Script.plantUnder n ts).run w = (.done (), { w with store := s' }) ∧ s.Extends s' ∧
      w.store.Plants s' n ts us

theorem run_plant_node {below : List (Outline Element)} (sound : w.store.Sound)
    (under : Plantable σ below) (e : Element) :
    ∃ n s' us, (Script.plant (.node e below)).run w = (.done n, { w with store := s' }) ∧
      w.store.Extends s' ∧ n ∉ w.store ∧ n ∈ s' ∧ (s'.links n).parent = none ∧
      s'.Shows [.node ⟨n, e.planted⟩ us] ∧
      us.map (Outline.map Cell.element) = below.map (Outline.map Element.planted) ∧
      ∀ m ∈ ids us, m ∉ w.store := by
  obtain ⟨n, s₁, hnew, extends₁, hn, hmem, hlinks, helement⟩ := run_newElement sound e
  have sound₁ := Script.sound_of_run sound hnew
  have hempty : s₁.children n = [] := by
    have hfirst := sound₁.linked.firstChild (n := n)
    rw [hlinks] at hfirst
    exact List.head?_eq_none_iff.mp hfirst.symm
  obtain ⟨s₂, us, hunder, extends₂, plants⟩ :=
    under { w with store := s₁ } w.store n sound₁ extends₁ hmem hn (by simp [hempty])
  refine ⟨n, s₂, us, ?_, extends₂, hn, plants.frame.held n hmem, ?_, ?_, plants.shows, fun m hm hw =>
    plants.fresh m hm (extends₁.held m hw)⟩
  · exact (Script.run_bind_of_done hnew).trans (Script.run_bind_of_done hunder)
  · rw [plants.parents n hmem, hlinks]
  · refine .cons ((plants.frame.element n hmem (by simp)).trans helement) ?_ plants.shown .nil
    rw [plants.children, hempty, List.nil_append]

/-- Since `s₁`, which extends `s`, a node `c` was made, and is put below `n` now. -/
structure Adopts (s s₁ s₂ : Store) (n c : NodeId) : Prop where
  refusal : (Edit.append n c).refusal? s₂ = none
  grown : s.Extends (s₂.append n c)
  frame : s₂.Frame (s₂.append n c) [] [n]
  children : (s₂.append n c).children n = s₁.children n ++ [c]
  fresh : ∀ m ∈ (s₂.append n c).children n, m ∉ s
  parents : ∀ m ∈ s₁, ((s₂.append n c).links m).parent = (s₁.links m).parent

theorem adopts {s s₁ s₂ : Store} (linked : s₁.WellLinked) (linked₂ : s₂.WellLinked)
    (grown : s.Extends s₁) (grown₂ : s₁.Extends s₂) (hn : n ∈ s₁) (hnew : n ∉ s)
    (hchildren : ∀ m ∈ s₁.children n, m ∉ s) (hc : c ∉ s₁) (hcmem : c ∈ s₂)
    (detached : (s₂.links c).parent = none) : Adopts s s₁ s₂ n c := by
  have hn₂ : n ∈ s₂ := grown₂.held n hn
  have hnc : n ≠ c := fun he => hc (he ▸ hn)
  have ok : s₂.cycle? n c = none := (cycle?_eq_none_iff linked₂).mpr
    ⟨Ne.symm hnc, fun ha => hc (grown₂.mem_of_above linked ha hn)⟩
  have hall : ∀ q, (s₂.append n c).children q =
      if q = n then s₂.children q ++ [c] else s₂.children q := by
    intro q
    rw [linked₂.children_append hn₂ hcmem, List.erase_of_not_mem]
    simp [linked₂.mem_children, detached]
  have hsame : s₂.children n = s₁.children n := grown₂.children linked hn
  have children : (s₂.append n c).children n = s₁.children n ++ [c] := by
    rw [hall, if_pos rfl, hsame]
  have relinked := Relinked.append s₂ n c
  have frame : s₂.Frame (s₂.append n c) [] [n] := relinked.frame fun q hq => by
    rw [hall, if_neg (by simpa using hq)]
  have hgrown := grown.trans grown₂
  refine ⟨by simp [Edit.refusal?, ok], ⟨fun m hm => frame.held m (hgrown.held m hm),
    hgrown.guards.trans frame.guards, fun m hm => ?_,
    fun m hm => (relinked.element m).trans (hgrown.element m hm)⟩, frame, children, fun m hm => ?_,
    fun m hm => ?_⟩
  · refine (links_append_of_apart linked₂ hn₂ hcmem detached (fun he => hnew (he ▸ hm))
      (fun he => hc (he ▸ grown.held m hm)) fun hmc => ?_).trans (hgrown.links m hm)
    exact hchildren m (hsame ▸ hmc) hm
  · rw [children, List.mem_append, List.mem_singleton] at hm
    rcases hm with hm | rfl
    · exact hchildren m hm
    · exact fun hs => hc (grown.held m hs)
  · have hne : m ≠ c := fun he => hc (he ▸ hm)
    rw [parent_append linked₂ hn₂ hcmem detached, if_neg hne, grown₂.links m hm]

theorem plantable (ts : List (Outline Element)) : Plantable σ ts := by
  induction ts using Outline.forest_induction with
  | nil =>
    intro w s n _ hext _ _ _
    exact ⟨w.store, [], rfl, hext, (Frame.refl _).mono (by simp) (by simp), fun _ _ => rfl, by simp,
      .nil, rfl, by simp⟩
  | cons e below ts ihc iht =>
    intro w s n sound hext hn hnew hchildren
    obtain ⟨c, s₂, us, hplant, extends₂, hc, hcmem, hparent, shown, hus, hfresh⟩ :=
      run_plant_node sound ihc e
    have sound₂ := Script.sound_of_run sound hplant
    have adopts := adopts sound.linked sound₂.linked hext extends₂ hn hnew hchildren hc hcmem hparent
    let w₃ : World σ := { w with store := s₂.append n c }
    have sound₃ : w₃.store.Sound := Edit.sound_apply sound₂ adopts.refusal
    obtain ⟨s₄, us', hunder, extends₄, plants⟩ := iht w₃ s n sound₃ adopts.grown
      (adopts.frame.held n (extends₂.held n hn)) hnew adopts.fresh
    have hheld : ∀ m ∈ ids [.node ⟨c, e.planted⟩ us], m ∈ s₂ := fun m =>
      shown.mem_store sound₂.linked (by simpa using hcmem)
    have hnc : n ≠ c := fun he => hc (he ▸ hn)
    have hout : ∀ m ∈ ids [.node ⟨c, e.planted⟩ us], m ∉ [n] := by
      intro m hm hmn
      rw [ids_singleton, List.mem_cons] at hm
      cases List.mem_singleton.mp hmn
      rcases hm with he | hm
      · exact hnc he
      · exact hfresh n hm hn
    have shown₄ : s₄.Shows [.node ⟨c, e.planted⟩ us] :=
      plants.frame.shows (adopts.frame.shows shown hheld (by simp) hout)
        (fun m hm => adopts.frame.held m (hheld m hm)) (by simp) hout
    refine ⟨s₄, .node ⟨c, e.planted⟩ us :: us', ?_, extends₄, ?_, fun m hm => ?_, ?_,
      shown₄.append plants.shown, ?_, fun m hm hw => ?_⟩
    · exact (Script.run_bind_of_done hplant).trans
        ((Script.run_bind_of_done (Script.run_perform_of_none adopts.refusal)).trans hunder)
    · exact (((extends₂.frame sound.linked).trans adopts.frame).trans plants.frame).mono (by simp)
        (by simp)
    · rw [plants.parents m (adopts.frame.held m (extends₂.held m hm)), adopts.parents m hm]
    · rw [plants.children, adopts.children, List.append_assoc]
      rfl
    · simp only [List.map_cons, Outline.map_node, hus, plants.shows]
    · rw [ids_cons, List.mem_cons, List.mem_append] at hm
      rcases hm with rfl | hm | hm
      · exact hc hw
      · exact hfresh m hm hw
      · exact plants.fresh m hm (adopts.frame.held m (extends₂.held m hw))

/-- A planted tree is detached, consists of new nodes, and shows its outline. -/
theorem run_plant_tree (sound : w.store.Sound) (t : Outline Element) :
    ∃ n s', (Script.plant t).run w = (.done n, { w with store := s' }) ∧ w.store.Extends s' ∧
      n ∈ s' ∧ (s'.links n).parent = none ∧ s'.document n = t.map Element.planted ∧
      ∀ m, m = n ∨ s'.Above n m → m ∉ w.store := by
  obtain ⟨e, below⟩ := t
  obtain ⟨n, s', us, hrun, hext, hn, hmem, parent, shown, hus, fresh⟩ :=
    run_plant_node sound (plantable below) e
  obtain ⟨helement, hchildren, hbelow⟩ := shown.of_mem List.mem_cons_self
  have linked : s'.WellLinked := (Script.sound_of_run sound hrun).linked
  refine ⟨n, s', hrun, hext, hmem, parent, ?_, ?_⟩
  · rw [hbelow.document_eq linked hchildren, hus, Outline.map_node]
    exact congrArg (Outline.node · _) helement
  · rintro m (rfl | above)
    · exact hn
    · exact fresh m ((hbelow.mem_ids_iff_above linked hchildren).mpr above)

/-- A planted tree is new, and shows its outline. -/
theorem run_plant (sound : w.store.Sound) (t : Outline Element) :
    ∃ n s', (Script.plant t).run w = (.done n, { w with store := s' }) ∧ w.store.Extends s' ∧
      n ∉ w.store ∧ n ∈ s' ∧ s'.document n = t.map Element.planted := by
  obtain ⟨n, s', hrun, hext, hmem, _, document, fresh⟩ := run_plant_tree sound t
  exact ⟨n, s', hrun, hext, fresh n (Or.inl rfl), hmem, document⟩

end Store

variable {σ : Type}

theorem exists_world (t : Outline Element) (state : σ) : ∃ (w : World σ) (root : NodeId),
    w.store.Sound ∧ root ∈ w.store ∧ w.store.document root = t.map Element.planted := by
  obtain ⟨n, s', hrun, _, _, hmem, hdocument⟩ :=
    Store.run_plant (w := { store := {}, state }) Store.sound_empty t
  exact ⟨{ store := s', state }, n, Script.sound_of_run Store.sound_empty hrun, hmem, hdocument⟩

/-- Surroundings that look names up in a registry, and for a template plant a tree or fail. Their
handlers do nothing. -/
def Surroundings.planting (r : Registry) (trees : String → Except Fault (Outline Element)) :
    Surroundings σ where
  lookup name := pure ((r.find? name).map .snippet)
  parse text :=
    match trees text with
    | .ok t => Script.plant t
    | .error e => .fail e
  handle _ _ := pure ()

theorem Surroundings.exists_of_planting {r : Registry}
    {trees : String → Except Fault (Outline Element)} {text : String} {w w' : World σ} {n : NodeId}
    (sound : w.store.Sound)
    (h : ((Surroundings.planting r trees).parse text).run w = (.done n, w')) :
    ∃ t, trees text = .ok t ∧ (Script.plant t).run w = (.done n, w') ∧
      w'.store.document n = t.map Element.planted := by
  simp only [planting] at h
  cases ht : trees text with
  | error e =>
    rw [ht] at h
    cases h
  | ok t =>
    rw [ht] at h
    obtain ⟨n', s', hplant, _, _, _, hdocument⟩ := Store.run_plant sound t
    cases hplant.symm.trans h
    exact ⟨t, rfl, h, hdocument⟩

theorem Surroundings.planting_describes {ρ : Rules σ}
    {trees : String → Except Fault (Outline Element)}
    (reads : ∀ text, ρ.reads text ((trees text).map (Outline.map Element.planted)))
    (rewrite : ∀ h e, ρ.rewrite h e = e) (changes : ∀ call a, ρ.changes call a a) :
    ρ.Describes (.planting ρ.registry trees) where
  lookup := fun name w => ⟨w.state, changes _ _, rfl⟩
  parse := by
    intro name s text _ _ w sound
    have hreads := reads text
    cases ht : trees text with
    | ok t =>
      obtain ⟨n, s', hrun, hext, hn, hmem, hdocument⟩ := Store.run_plant sound t
      rw [ht] at hreads
      refine Or.inl ⟨n, { w with store := s' }, ?_, hext, hn, hmem, ?_, changes _ _⟩
      · simp only [planting, ht, hrun]
      · rw [hdocument]
        exact hreads
    | error e =>
      rw [ht] at hreads
      refine Or.inr ⟨e, w, ?_, .refl _, hreads⟩
      simp only [planting, ht]
      rfl
  handle := by
    intro name s h _ _ w n _ hn
    refine ⟨w, fun resolve => rfl, ?_, changes _ _⟩
    rw [rewrite]
    exact .refl _ n

end SnippetTree
