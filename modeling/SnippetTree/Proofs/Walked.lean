import SnippetTree.Proofs.Rules

namespace SnippetTree

open Cell Script

namespace Store

variable {s s' : Store} {n m p : NodeId} {ts : List (Outline Cell)} {drawn moved : List NodeId}

namespace Extends

theorem children (h : s.Extends s') (linked : s.WellLinked) (hm : m ∈ s) :
    s'.children m = s.children m := by
  have hs := linked.siblings m
  have held : ∀ c ∈ s.children m, c ∈ s := fun c hc => mem_of_parent (hs.parent hc)
  have room : (s.children m).length ≤ s'.nodes.size :=
    length_le_size hs.nodup fun c hc => h.held c (held c hc)
  rw [Store.children, h.links m hm, hs.first]
  refine chain_eq_of_links (fun before c after he => ?_) room
  rw [h.links c (held c (by simp [he]))]
  exact (hs.placed before c after he).2.2

theorem frame (h : s.Extends s') (linked : s.WellLinked) : s.Frame s' [] [] :=
  ⟨h.held, h.guards, fun m hm _ => h.element m hm, fun _ hm _ => h.children linked hm⟩

theorem mem_of_above (h : s.Extends s') (linked : s.WellLinked) (ha : s'.Above n m) (hm : m ∈ s) :
    n ∈ s := by
  induction ha with
  | single hp =>
    rw [h.links _ hm] at hp
    exact linked.parent_mem hp
  | tail _ hp ih =>
    rw [h.links _ hm] at hp
    exact ih (linked.parent_mem hp)

end Extends

theorem guardAt_modify {g g' : GuardId} {f : Guard → Guard} (hg : g.index < s.guards.size) :
    ({ s with guards := s.guards.modify g.index f } : Store).guardAt g' =
      if g' = g then f (s.guardAt g) else s.guardAt g' := by
  obtain ⟨i⟩ := g
  obtain ⟨j⟩ := g'
  simp only [guardAt, GuardId.mk.injEq, Array.getD_eq_getD_getElem?, Array.getElem?_modify]
  by_cases h : j = i
  · subst h
    simp [hg]
  · simp [h, Ne.symm h]

theorem Frame.report (s : Store) (notice : Notice) :
    s.Frame ((Edit.report notice).apply s) [] [] :=
  ⟨fun _ hm => hm, .of_eq rfl, fun _ _ _ => rfl, fun _ _ _ => rfl⟩

theorem Frame.within {g : GuardId} {x : Snippet} (hg : g.index < s.guards.size)
    (inactive : (s.guardAt g).contains x = false)
    (h : ((Edit.enter g x).apply s).Frame s' drawn moved) :
    s.Frame ((Edit.leave g x).apply s') drawn moved := by
  refine ⟨h.held, fun g' hg' => ?_, h.element, h.children⟩
  have hsize : g'.index < ((Edit.enter g x).apply s).guards.size := by
    simpa [Edit.apply] using hg'
  obtain ⟨held, hsame⟩ := h.guards g' hsize
  have hgs : g.index < s'.guards.size := (h.guards g (by simpa [Edit.apply] using hg)).1
  refine ⟨by simpa [Edit.apply] using held, ?_⟩
  simp only [Edit.apply] at hsame ⊢
  rw [guardAt_modify hgs]
  rw [guardAt_modify hg] at hsame
  by_cases he : g' = g
  · subst he
    rw [if_pos rfl] at hsame ⊢
    rw [hsame, Guard.erase_insert inactive]
  · rw [if_neg he] at hsame ⊢
    exact hsame

theorem Shows.among (h : s.Shows ts) (linked : s.WellLinked) {before after : List NodeId}
    (hp : s.children p = before ++ (roots ts ++ after)) :
    (ids ts).Nodup ∧ p ∉ ids ts ∧ ∀ m ∈ ids ts, m ∈ s := by
  have hparent : ∀ r ∈ roots ts, (s.links r).parent = some p := fun r hr =>
    linked.mem_children.mp (by simp [hp, hr])
  have hnodup := (linked.siblings p).nodup
  rw [hp] at hnodup
  have hroots := (List.nodup_append.mp (List.nodup_append.mp hnodup).2.1).1
  obtain ⟨hn, hout⟩ := h.nodup_ids linked hroots hparent
  exact ⟨hn, hout, fun m => h.mem_store linked fun r hr => mem_of_parent (hparent r hr)⟩

theorem WellLinked.nextSibling_eq (linked : s.WellLinked) {before after : List NodeId}
    (hp : s.children p = before ++ n :: after) : (s.links n).nextSibling = after.head? :=
  ((linked.siblings p).placed before n after hp).2.2

/-- A shown forest, the last of what is below `p`. -/
structure Lies (s : Store) (ts : List (Outline Cell)) (p : NodeId) (before : List NodeId) : Prop where
  linked : s.WellLinked
  shown : s.Shows ts
  children : s.children p = before ++ roots ts

/-- A shown tree among the children of `p`, with those before it and after it. -/
structure Stands (s : Store) (a : Cell) (cs : List (Outline Cell)) (p : NodeId)
    (before after : List NodeId) : Prop where
  linked : s.WellLinked
  shown : s.Shows [.node a cs]
  children : s.children p = before ++ a.id :: after

namespace Stands

variable {a : Cell} {cs : List (Outline Cell)} {before after : List NodeId}

theorem parent (h : s.Stands a cs p before after) : (s.links a.id).parent = some p :=
  h.linked.mem_children.mp (by simp [h.children])

theorem parent_mem (h : s.Stands a cs p before after) : p ∈ s := h.linked.parent_mem h.parent

theorem among (h : s.Stands a cs p before after) :
    (a.id :: ids cs).Nodup ∧ p ∉ a.id :: ids cs ∧ ∀ m ∈ a.id :: ids cs, m ∈ s := by
  have hall := h.shown.among h.linked
    (by simpa using h.children : s.children p = before ++ (roots [.node a cs] ++ after))
  rwa [ids_singleton] at hall

theorem held (h : s.Stands a cs p before after) (hm : m ∈ a.id :: ids cs) : m ∈ s :=
  h.among.2.2 m hm

theorem mem (h : s.Stands a cs p before after) : a.id ∈ s := h.held List.mem_cons_self

theorem not_mem (h : s.Stands a cs p before after) : a.id ∉ ids cs :=
  (List.nodup_cons.mp h.among.1).1

theorem element (h : s.Stands a cs p before after) : s.element a.id = a.element :=
  (h.shown.of_mem List.mem_cons_self).1

theorem own (h : s.Stands a cs p before after) : s.children a.id = roots cs :=
  (h.shown.of_mem List.mem_cons_self).2.1

theorem below (h : s.Stands a cs p before after) : s.Shows cs :=
  (h.shown.of_mem List.mem_cons_self).2.2

theorem of_frame (h : s.Stands a cs p before after) (frame : s.Frame s' drawn moved)
    (linked : s'.WellLinked) (hdrawn : ∀ m ∈ a.id :: ids cs, m ∉ drawn)
    (hmoved : ∀ m ∈ p :: a.id :: ids cs, m ∉ moved) : s'.Stands a cs p before after where
  linked := linked
  shown := by
    refine frame.shows h.shown ?_ ?_ ?_ <;> rw [ids_singleton]
    · exact fun m hm => h.held hm
    · exact hdrawn
    · exact fun m hm => hmoved m (List.mem_cons_of_mem _ hm)
  children := (frame.children p h.parent_mem (hmoved p (by simp))).trans h.children

theorem redraw {e : Element} (h : s.Stands a cs p before after) (frame : s.Frame s' [a.id] [])
    (linked : s'.WellLinked) (element : s'.element a.id = e) :
    s'.Stands { a with element := e } cs p before after where
  linked := linked
  shown := by
    refine .cons element ((frame.children a.id h.mem (by simp)).trans h.own) ?_ .nil
    exact frame.shows h.below (fun m hm => h.held (by simp [hm]))
      (fun m hm hm' => h.not_mem (List.mem_singleton.mp hm' ▸ hm)) (by simp)
  children := (frame.children p h.parent_mem (by simp)).trans h.children

end Stands

end Store

/-- Between the stores only guards and notices may differ. -/
structure Store.Rests (s s' : Store) : Prop where
  nodes : s'.nodes = s.nodes
  attributes : s'.attributes = s.attributes
  repetitions : s'.repetitions = s.repetitions

namespace Store.Rests

variable {s s' : Store}

theorem refl (s : Store) : s.Rests s := ⟨rfl, rfl, rfl⟩

theorem node (h : s.Rests s') (m : NodeId) : s'.node m = s.node m := by
  rw [Store.node, Store.node, h.nodes]

theorem mem_iff (h : s.Rests s') {m : NodeId} : m ∈ s' ↔ m ∈ s := by
  rw [Store.mem_iff, Store.mem_iff, h.nodes]

theorem frame (h : s.Rests s') (guards : s.KeepsGuards s') : s.Frame s' [] [] := by
  obtain ⟨nodes, attributes, repetitions, _, _⟩ := s'
  obtain ⟨rfl, rfl, rfl⟩ := h
  exact ⟨fun _ hm => hm, guards, fun _ _ _ => rfl, fun _ _ _ => rfl⟩

end Store.Rests

/-- Between the worlds nothing happened that is accounted for. -/
structure World.Idles {σ : Type} (w w' : World σ) : Prop where
  state : w'.state = w.state
  store : w.store.Rests w'.store

theorem World.Idles.refl {σ : Type} (w : World σ) : w.Idles w := ⟨rfl, .refl w.store⟩

theorem World.Idles.held {σ : Type} {w w' : World σ} (h : w.Idles w') :
    ∀ m ∈ w.store, m ∈ w'.store :=
  fun _ hm => h.store.mem_iff.mpr hm

/-- A way to account for resolutions: what becomes of a forest while the snippets of a guard are
under expansion, from one world to another, and how that ends. -/
structure Account (σ : Type) where
  yields : Guard → List (Outline Cell) → List (Outline Cell) → World σ → World σ →
    Outcome Unit → Prop
  /-- The nodes that are not there at the start. -/
  fresh : NodeId → Prop
  /-- The guards under which the account is kept. -/
  admits : Guard → Prop
  admits_empty : admits {}
  ended : ∀ {G ts ts' w w' out}, yields G ts ts' w w' out → out ≠ .exhausted
  nil : ∀ G w, yields G [] [] w w (.done ())
  append : ∀ {G p before t us' ts ts' w w₁ w' out}, w.store.Lies ([t] ++ ts) p before →
    w₁.store.Lies (us' ++ ts) p before → yields G [t] us' w w₁ (.done ()) →
    yields G ts ts' w₁ w' out → yields G ([t] ++ ts) (us' ++ ts') w w' out
  append_failed : ∀ {G us us' w w' fault}, yields G us us' w w' (.failed fault) →
    ∀ ts, yields G (us ++ ts) (us' ++ ts) w w' (.failed fault)
  around : ∀ {G ts ts' w w₁ w₂ w' out}, w.Idles w₁ → yields G ts ts' w₁ w₂ out → w₂.Idles w' →
    yields G ts ts' w w' out

namespace Account

variable {σ : Type} {A : Account σ} {G : Guard} {s s' : Store} {w w' : World σ} {p : NodeId}
  {before after : List NodeId} {ts ts' : List (Outline Cell)} {a : Cell}
  {cs : List (Outline Cell)} {out : Outcome Unit} {ready : Store → Prop}
  {visit : Limits → NodeId → Script σ Empty Unit}

/-- From `w` to `w'`, the forest `ts` below `p` became `ts'` as the account says, and nothing else
changed. -/
structure Reaches (A : Account σ) (G : Guard) (p : NodeId) (before after : List NodeId)
    (ts : List (Outline Cell)) (w w' : World σ) (ts' : List (Outline Cell)) (out : Outcome Unit) :
    Prop where
  frame : w.store.Frame w'.store (ids ts) (p :: ids ts)
  shown : w'.store.Shows ts'
  origin : ∀ m ∈ ids ts', m ∈ ids ts ∨ m ∉ w.store
  children : w'.store.children p = before ++ (roots ts' ++ after)
  yields : A.yields G ts ts' w w' out

theorem Reaches.not_mem {m : NodeId} (h : A.Reaches G p before after ts w w' ts' out)
    (held : m ∈ w.store) (hout : m ∉ ids ts) : m ∉ ids ts' := fun hm =>
  (h.origin m hm).elim hout fun hnew => hnew held

/-- What a visit needs of the store, whatever happened elsewhere in between. -/
structure Steady (ready : Store → Prop) : Prop where
  sound : ∀ s, ready s → s.Sound
  keeps : ∀ s s' drawn moved, ready s → s.Frame s' drawn moved → s'.Sound → ready s'

/-- A walk over the forest, last among the children of any node, does what the account says. -/
def Walks (A : Account σ) (visit : Limits → NodeId → Script σ Empty Unit) (ready : Store → Prop)
    (G : Guard) (ts : List (Outline Cell)) : Prop :=
  ∀ (w : World σ) p before, ready w.store → w.store.Shows ts →
    w.store.children p = before ++ roots ts →
    ∃ out w' ts', WalkEnds visit (roots ts).head? w (out, w') ∧ w'.store.Sound ∧
      A.Reaches G p before [] ts w w' ts' out

/-- A visit that leaves the node where it is, and its children to the walk that goes on. -/
structure Passed (A : Account σ) (G : Guard) (a : Cell) (cs : List (Outline Cell)) (w w' : World σ)
    (e : Element) : Prop where
  frame : w.store.Frame w'.store [a.id] []
  element : w'.store.element a.id = e
  lift : ∀ cs' w'' out, A.yields G cs cs' w' w'' out →
    A.yields G [.node a cs] [.node { a with element := e } cs'] w w'' out

/-- A visit does what the account says of a node: it passes it, or it replaces it and leaves nothing
below it, or it fails. -/
def Meets (A : Account σ) (visit : Limits → NodeId → Script σ Empty Unit) (G : Guard) (a : Cell)
    (cs : List (Outline Cell)) (p : NodeId) (before after : List NodeId) (w : World σ) : Prop :=
  (∃ w' e, Ends (visit · a.id) w (.done (), w') ∧ A.Passed G a cs w w' e) ∨
    ∃ out w' us, Ends (visit · a.id) w (out, w') ∧ (out = .done () → w'.store.children a.id = []) ∧
      A.Reaches G p before after [.node a cs] w w' us out

theorem Reaches.ended (h : A.Reaches G p before after ts w w' ts' out) : out ≠ .exhausted :=
  A.ended h.yields

theorem walks_nil (steady : Steady ready) : A.Walks visit ready G [] := by
  intro w p before start _ hp
  refine ⟨.done (), w, [], .none w, steady.sound _ start,
    (Store.Frame.refl _).mono (by simp) (by simp), .nil, by simp, by simpa using hp,
    A.nil G w⟩

theorem Reaches.around {w₁ : World σ} {e : Element} (stands : w.store.Stands a cs p before after)
    (frame : w.store.Frame w₁.store [a.id] []) (element : w₁.store.element a.id = e)
    (reached : A.Reaches G a.id [] [] cs w₁ w' ts' out)
    (yields : A.yields G [.node a cs] [.node { a with element := e } ts'] w w' out) :
    A.Reaches G p before after [.node a cs] w w' [.node { a with element := e } ts'] out where
  frame := by
    rw [ids_singleton]
    refine (frame.trans reached.frame).mono (fun m _ hm => ?_) fun m _ hm => ?_
    · simpa using hm
    · exact List.mem_cons_of_mem _ (by simpa using hm)
  shown := by
    refine .cons ?_ (by simpa using reached.children) reached.shown .nil
    exact (reached.frame.element a.id (frame.held _ stands.mem) stands.not_mem).trans element
  origin := by
    intro m hm
    rw [ids_singleton, List.mem_cons] at hm ⊢
    rcases hm with rfl | hm
    · exact Or.inl (Or.inl rfl)
    · exact (reached.origin m hm).imp Or.inr fun hm hm' => hm (frame.held m hm')
  children := by
    rw [reached.frame.children p (frame.held p stands.parent_mem) stands.among.2.1,
      frame.children p stands.parent_mem (by simp), stands.children]
    rfl
  yields := yields

theorem reaches_of_passed {w₁ : World σ} {e : Element} (steady : Steady ready)
    (start : ready w.store) (walks : A.Walks visit ready G cs)
    (stands : w.store.Stands a cs p before after) (hvisit : Ends (visit · a.id) w (.done (), w₁))
    (passed : A.Passed G a cs w w₁ e) :
    ∃ out w' us, VisitEnds visit a.id w (out, w') ∧ w'.store.Sound ∧
      A.Reaches G p before after [.node a cs] w w' us out := by
  obtain ⟨frame, element, lift⟩ := passed
  have sound₁ := hvisit.sound (steady.sound _ start)
  have stands₁ := stands.redraw frame sound₁.linked element
  obtain ⟨out, w', cs', hwalk, sound', reached⟩ :=
    walks w₁ a.id [] (steady.keeps _ _ _ _ start frame sound₁) stands₁.below stands₁.own
  have hstart : (w₁.store.links a.id).firstChild = (roots cs).head? := by
    rw [sound₁.linked.firstChild]
    exact congrArg List.head? stands₁.own
  rw [← hstart] at hwalk
  exact ⟨out, w', _, .of_done hvisit hwalk, sound',
    .around stands frame element reached (lift cs' w' out reached.yields)⟩

theorem reaches_of_meets (steady : Steady ready) (start : ready w.store)
    (walks : A.Walks visit ready G cs) (stands : w.store.Stands a cs p before after)
    (meets : A.Meets visit G a cs p before after w) :
    ∃ out w' us, VisitEnds visit a.id w (out, w') ∧ w'.store.Sound ∧
      A.Reaches G p before after [.node a cs] w w' us out := by
  rcases meets with ⟨w₁, e, hvisit, passed⟩ | ⟨out, w', us, hvisit, hempty, reached⟩
  · exact reaches_of_passed steady start walks stands hvisit passed
  · have sound' := hvisit.sound (steady.sound _ start)
    refine ⟨out, w', us, ?_, sound', reached⟩
    cases out with
    | exhausted => exact absurd rfl reached.ended
    | failed fault => exact .of_failed hvisit
    | done result =>
      refine .of_done hvisit ?_
      rw [sound'.linked.firstChild, hempty rfl]
      exact .none w'

theorem apart_of_append (linked : s.WellLinked) {us : List (Outline Cell)}
    (shown : s.Shows (us ++ ts)) (hp : s.children p = before ++ roots (us ++ ts)) :
    (∀ m ∈ ids us, m ≠ p ∧ m ∉ ids ts ∧ m ∈ s) ∧ ∀ m ∈ ids ts, m ≠ p ∧ m ∉ ids us ∧ m ∈ s := by
  obtain ⟨hnodup, hpout, hheld⟩ := shown.among linked
    (by simpa using hp : s.children p = before ++ (roots (us ++ ts) ++ []))
  rw [ids_append] at hnodup hpout hheld
  have hdisjoint := (List.nodup_append.mp hnodup).2.2
  refine ⟨fun m hm => ⟨?_, fun hm' => hdisjoint m hm m hm' rfl, hheld m (by simp [hm])⟩,
    fun m hm => ⟨?_, fun hm' => hdisjoint m hm' m hm rfl, hheld m (by simp [hm])⟩⟩
  · rintro rfl
    exact hpout (List.mem_append_left _ hm)
  · rintro rfl
    exact hpout (List.mem_append_right _ hm)

theorem Reaches.shows {us : List (Outline Cell)} (h : A.Reaches G p before after ts w w' ts' out)
    (shown : w.store.Shows us) (apart : ∀ m ∈ ids us, m ≠ p ∧ m ∉ ids ts ∧ m ∈ w.store) :
    w'.store.Shows us :=
  h.frame.shows shown (fun m hm => (apart m hm).2.2) (fun m hm => (apart m hm).2.1)
    fun m hm hm' => (List.mem_cons.mp hm').elim (apart m hm).1 (apart m hm).2.1

theorem Reaches.append_failed {us us' : List (Outline Cell)} {fault : Fault}
    (h : A.Reaches G p before (roots ts) us w w' us' (.failed fault)) (rest : w'.store.Shows ts) :
    A.Reaches G p before [] (us ++ ts) w w' (us' ++ ts) (.failed fault) where
  frame := by
    rw [ids_append]
    refine h.frame.mono (fun m _ hm => List.mem_append_left _ hm) fun m _ hm => ?_
    rw [← List.cons_append]
    exact List.mem_append_left _ hm
  shown := h.shown.append rest
  origin := by
    intro m hm
    rw [ids_append] at hm ⊢
    rcases List.mem_append.mp hm with hm | hm
    · exact (h.origin m hm).imp_left (List.mem_append_left _)
    · exact Or.inl (List.mem_append_right _ hm)
  children := by rw [h.children, roots_append, List.append_nil]
  yields := A.append_failed h.yields ts

theorem Reaches.append {t : Outline Cell} {us' : List (Outline Cell)} {w₁ : World σ}
    (lies : w.store.Lies ([t] ++ ts) p before) (linked : w₁.store.WellLinked)
    (rest : w₁.store.Shows ts) (h : A.Reaches G p before (roots ts) [t] w w₁ us' (.done ()))
    (h' : A.Reaches G p (before ++ roots us') [] ts w₁ w' ts' out) :
    A.Reaches G p before [] ([t] ++ ts) w w' (us' ++ ts') out where
  frame := by
    rw [ids_append]
    refine (h.frame.trans h'.frame).mono (fun m _ hm => hm) fun m _ hm => ?_
    simp only [List.mem_append, List.mem_cons] at hm ⊢
    tauto
  shown := by
    refine (h'.shows h.shown ?_).append h'.shown
    exact (apart_of_append linked (h.shown.append rest) (by simpa using h.children)).1
  origin := by
    intro m hm
    rw [ids_append] at hm ⊢
    rcases List.mem_append.mp hm with hm | hm
    · exact (h.origin m hm).imp_left (List.mem_append_left _)
    · exact (h'.origin m hm).imp (List.mem_append_right _) fun hm hm' => hm (h.frame.held m hm')
  children := by
    rw [h'.children, roots_append]
    simp only [List.append_assoc]
  yields := A.append lies ⟨linked, h.shown.append rest, by simpa using h.children⟩ h.yields h'.yields

theorem walks_cons (steady : Steady ready)
    (meets : ∀ (w : World σ) p before after, ready w.store →
      w.store.Stands a cs p before after → A.Meets visit G a cs p before after w)
    (below : A.Walks visit ready G cs) (walks : A.Walks visit ready G ts) :
    A.Walks visit ready G (.node a cs :: ts) := by
  intro w p before start shown hp
  have linked := (steady.sound _ start).linked
  have happend : w.store.Shows ([.node a cs] ++ ts) := shown
  obtain ⟨hfirst, hrest⟩ := happend.of_append
  have stands : w.store.Stands a cs p before (roots ts) := ⟨linked, hfirst, hp⟩
  obtain ⟨out, w₁, us, hvisit, sound₁, reached⟩ :=
    reaches_of_meets steady start below stands (meets w p before (roots ts) start stands)
  have hts : w₁.store.Shows ts := reached.shows hrest (apart_of_append linked happend hp).2
  have hnext := linked.nextSibling_eq stands.children
  cases out with
  | exhausted => exact absurd rfl reached.ended
  | failed fault =>
    exact ⟨_, w₁, us ++ ts, .cons_failed hvisit, sound₁, reached.append_failed hts⟩
  | done result =>
    obtain ⟨out, w₂, ts', hwalk, sound₂, reached'⟩ := walks w₁ p (before ++ roots us)
      (steady.keeps _ _ _ _ start reached.frame sound₁) hts
      (by rw [reached.children, List.append_assoc])
    exact ⟨out, w₂, us ++ ts', .cons hvisit (hnext ▸ hwalk), sound₂,
      .append ⟨linked, happend, hp⟩ sound₁.linked hts reached reached'⟩

end Account

end SnippetTree
