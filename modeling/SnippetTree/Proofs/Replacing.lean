import SnippetTree.Proofs.Walked

namespace SnippetTree

open Cell Script Resolution

namespace Account

variable {σ : Type} {A : Account σ} {c : Nat → Surroundings σ} {G : Guard} {g : GuardId} {s s' : Store}
  {w w₀ w₁ w₂ : World σ} {p tree : NodeId} {before after : List NodeId} {a : Cell}
  {cs cs' us us' : List (Outline Cell)} {x : Snippet} {text : String} {out : Outcome Unit}

/-- The store is in order, and the guard `g` holds the snippets under expansion. -/
structure Ready (A : Account σ) (g : GuardId) (G : Guard) (s : Store) : Prop where
  sound : s.Sound
  fresh : ∀ n, n ∉ s → A.fresh n
  held : g.index < s.guards.size
  guard : s.guardAt g = G
  admitted : A.admits G

theorem Ready.of_frame {drawn moved : List NodeId} (h : A.Ready g G s)
    (frame : s.Frame s' drawn moved) (sound : s'.Sound) : A.Ready g G s' where
  sound := sound
  fresh := fun n hn => h.fresh n fun hm => hn (frame.held n hm)
  held := (frame.guards g h.held).1
  guard := (frame.guards g h.held).2.trans h.guard
  admitted := h.admitted

theorem Ready.steady : Steady (A.Ready g G) where
  sound := fun _ h => h.sound
  keeps := fun _ _ _ _ h frame sound => h.of_frame frame sound

theorem reaches_within {x : Snippet} {tree : NodeId} {us : List (Outline Cell)}
    (walks : ∀ g, A.Walks (visitUnder c g) (A.Ready g (G.insert x)) (G.insert x) us)
    (ready : A.Ready g G w.store) (admitted : A.admits (G.insert x))
    (inactive : G.contains x = false) (shown : w.store.Shows us)
    (htree : w.store.children tree = roots us) :
    ∃ out w' us', Ends (fun l => within g x (walk l.steps tree (visitUnder c g l))) w (out, w') ∧
      A.Reaches (G.insert x) tree [] [] us w w' us' out := by
  let w₁ : World σ := { w with store := (Edit.enter g x).apply w.store }
  have sound₁ : w₁.store.Sound := Edit.sound_apply (e := .enter g x) ready.sound rfl
  have ready₁ : A.Ready g (G.insert x) w₁.store := by
    refine ⟨sound₁, ready.fresh, by simpa [w₁, Edit.apply] using ready.held, ?_, admitted⟩
    change Store.guardAt { w.store with guards := _ } g = _
    rw [Store.guardAt_modify ready.held, if_pos rfl, ready.guard]
  have shown₁ : w₁.store.Shows us := shown.congr fun _ _ => ⟨rfl, rfl⟩
  have entered : w.Idles w₁ := ⟨rfl, rfl, rfl, rfl⟩
  obtain ⟨out, w₂, us', hwalk, _, reached⟩ := walks g w₁ tree [] ready₁ shown₁ htree
  have hstart : (w₁.store.links tree).firstChild = (roots us).head? := by
    rw [sound₁.linked.firstChild]
    exact congrArg List.head? htree
  rw [← hstart] at hwalk
  refine ⟨out, _, us', hwalk.walk.within, ?_, reached.shown.congr fun _ _ => ⟨rfl, rfl⟩,
    reached.origin, reached.children,
    A.around entered reached.yields ⟨rfl, rfl, rfl, rfl⟩⟩
  exact reached.frame.within ready.held (ready.guard.symm ▸ inactive)

/-- Where a replacement has come to once its template's tree is resolved: as the nodes of that tree
are new, nothing that was there before has changed. -/
structure Grown (w₀ w₁ : World σ) (tree : NodeId) (us : List (Outline Cell)) : Prop where
  sound : w₁.store.Sound
  frame : w₀.store.Frame w₁.store [] []
  shown : w₁.store.Shows us
  children : w₁.store.children tree = roots us
  fresh : ∀ m ∈ tree :: ids us, m ∉ w₀.store
  held : tree ∈ w₁.store

theorem Grown.of_earlier (h : Grown w₁ w₂ tree us) (frame : w₀.store.Frame w₁.store [] []) :
    Grown w₀ w₂ tree us where
  sound := h.sound
  frame := frame.trans h.frame
  shown := h.shown
  children := h.children
  fresh := fun m hm hw => h.fresh m hm (frame.held m hw)
  held := h.held

theorem Grown.mem (h : Grown w₀ w₁ tree us) : ∀ m ∈ tree :: ids us, m ∈ w₁.store := by
  intro m hm
  rcases List.mem_cons.mp hm with rfl | hm
  · exact h.held
  · exact (h.shown.among h.sound.linked (by simpa using h.children :
      w₁.store.children tree = [] ++ (roots us ++ []))).2.2 m hm

theorem Grown.reaches (h : Grown w₀ w tree us)
    (reached : A.Reaches G tree [] [] us w w₁ us' out) (sound : w₁.store.Sound) :
    Grown w₀ w₁ tree us' where
  sound := sound
  frame := by
    refine (h.frame.trans reached.frame).mono (fun m hm hd => ?_) fun m hm hd => ?_
    · exact absurd hm (h.fresh m (List.mem_cons_of_mem _ hd))
    · exact absurd hm (h.fresh m hd)
  shown := reached.shown
  children := by simpa using reached.children
  fresh := by
    intro m hm hw
    rcases List.mem_cons.mp hm with rfl | hm
    · exact h.fresh m (by simp) hw
    · rcases reached.origin m hm with hm | hm
      · exact h.fresh m (by simp [hm]) hw
      · exact hm (h.frame.held m hw)
  held := reached.frame.held tree h.held

/-- The end of a replacement, which leads from `w` to `w'`: the nodes `us` of the template's tree are
resolved, and so are the nodes `cs` below `n`. -/
structure Concludes (n tree p last : NodeId) (us cs : List (Outline Cell)) (w w' : World σ) : Prop where
  sound : w.store.Sound
  parent : (w.store.links n).parent = some p
  template : w.store.children tree = roots us
  own : w.store.children n = roots cs
  leaf : (tree :: ids us).getLast? = some last
  held : last ∈ w.store
  run : (drain n (fun child => perform (.append last child)) >>= fun _ => splice tree n).run w =
    (.done (), w')
  state : w'.state = w.state
  keeps : ∀ m ∈ w.store, m ∈ w'.store
  empty : w'.store.children n = []

theorem reaches_replaced (stands : w₀.store.Stands a cs p before after)
    (grown : Grown w₀ w₁ tree us) (reached : A.Reaches G a.id [] [] cs w₁ w₂ cs' out)
    (sound : w₂.store.Sound) :
    ∃ w', Concludes a.id tree p (w₁.store.lastLeaf tree) us cs' w₂ w' ∧
      w₀.store.Frame w'.store (a.id :: ids cs) (p :: a.id :: ids cs) ∧
      w'.store.Shows (giveAll a.element (Outline.graft us cs')) ∧
      w'.store.children p = before ++ (roots (Outline.graft us cs') ++ after) := by
  have stands₁ := stands.of_frame grown.frame grown.sound.linked (by simp) (by simp)
  have hl := grown.shown.getLast?_eq_lastLeaf grown.sound.linked grown.children
  have hlmem := List.mem_of_getLast? hl
  have hapart : ∀ m ∈ tree :: ids us, m ≠ p ∧ m ∉ a.id :: ids cs := fun m hm =>
    ⟨fun he => grown.fresh m hm (he ▸ stands.parent_mem),
      fun hm' => grown.fresh m hm (stands.held hm')⟩
  have hcs : ∀ m ∈ w₁.store, m ∉ a.id :: ids cs → m ∉ ids cs' := fun m hm hout =>
    reached.not_mem hm fun hm' => hout (List.mem_cons_of_mem _ hm')
  have htemplate : w₂.store.Shows us := reached.frame.shows grown.shown
    (fun m hm => grown.mem m (by simp [hm]))
    (fun m hm hm' => (hapart m (by simp [hm])).2 (by simp [hm'])) fun m hm hm' =>
      (hapart m (by simp [hm])).2 hm'
  have htree : w₂.store.children tree = roots us :=
    (reached.frame.children tree grown.held (hapart tree (by simp)).2).trans grown.children
  have hp : w₂.store.children p = before ++ a.id :: after :=
    (reached.frame.children p stands₁.parent_mem stands.among.2.1).trans stands₁.children
  have helement : w₂.store.element a.id = a.element :=
    (reached.frame.element a.id stands₁.mem stands.not_mem).trans stands₁.element
  have hown : w₂.store.children a.id = roots cs' := by simpa using reached.children
  have hlast := reached.frame.held _ (grown.mem _ hlmem)
  obtain ⟨s', hrun, frame, hn, hp', shown⟩ := run_replace sound htemplate htree reached.shown hown hp
    hl (hcs p stands₁.parent_mem stands.among.2.1)
    (fun m hm => ⟨(hapart m hm).1, fun he => (hapart m hm).2 (by simp [he]),
      hcs m (grown.mem m hm) (hapart m hm).2⟩) hlast
  rw [helement] at shown
  have hparent : (w₂.store.links a.id).parent = some p :=
    sound.linked.mem_children.mp (by simp [hp])
  refine ⟨{ w₂ with store := s' },
    ⟨sound, hparent, htree, hown, hl, hlast, hrun, rfl, frame.held, hn⟩, ?_, shown, hp'⟩
  refine ((grown.frame.trans reached.frame).trans frame).mono (fun m hm hd => ?_) fun m hm hd => ?_
  · rcases List.mem_append.mp hd with hd | hd
    · exact List.mem_cons_of_mem _ hd
    · have hd' := roots_subset_ids _ hd
      rw [ids_graft] at hd'
      rcases List.mem_append.mp hd' with hd' | hd'
      · exact absurd hm (grown.fresh m (by simp [hd']))
      · rcases reached.origin m hd' with hd' | hd'
        · exact List.mem_cons_of_mem _ hd'
        · exact absurd (grown.frame.held m hm) hd'
  · rcases List.mem_append.mp hd with hd | hd
    · exact List.mem_cons_of_mem _ hd
    · simp only [List.mem_cons, List.not_mem_nil, or_false] at hd
      rcases hd with rfl | rfl | rfl | rfl
      · simp
      · exact absurd hm (grown.fresh _ hlmem)
      · exact absurd hm (grown.fresh m (by simp))
      · simp

/-- What is accounted for of a template's tree and of what is below a node makes up the account of
the node's replacement, from before the template is read in `w₀`. -/
structure Lifts (A : Account σ) (G : Guard) (a : Cell) (cs : List (Outline Cell)) (x : Snippet)
    (tree p : NodeId) (us : List (Outline Cell)) (w₀ w : World σ) : Prop where
  admitted : A.admits (G.insert x)
  template : ∀ us' w₁ fault, A.yields (G.insert x) us us' w w₁ (.failed fault) →
    A.yields G [.node a cs] [.node a cs] w₀ w₁ (.failed fault)
  own : ∀ us' cs' w₁ w₂ fault, A.yields (G.insert x) us us' w w₁ (.done ()) →
    A.yields G cs cs' w₁ w₂ (.failed fault) →
    A.yields G [.node a cs] [.node a cs'] w₀ w₂ (.failed fault)
  done : ∀ us' cs' w₁ w₂ last w', Grown w₀ w₁ tree us' →
    A.yields (G.insert x) us us' w w₁ (.done ()) → A.yields G cs cs' w₁ w₂ (.done ()) →
    Concludes a.id tree p last us' cs' w₂ w' →
    A.yields G [.node a cs] (giveAll a.element (Outline.graft us' cs')) w₀ w' (.done ())

theorem reaches_settle
    (walksT : ∀ g, A.Walks (visitUnder c g) (A.Ready g (G.insert x)) (G.insert x) us)
    (walks : A.Walks (visitUnder c g) (A.Ready g G) G cs) (ready : A.Ready g G w.store)
    (stands : w₀.store.Stands a cs p before after) (grown : Grown w₀ w tree us)
    (inactive : G.contains x = false) (lifts : A.Lifts G a cs x tree p us w₀ w) :
    ∃ out w' us', Ends (fun l => settle g x l.steps (visitUnder c g l) tree a.id) w (out, w') ∧
      (out = .done () → w'.store.children a.id = []) ∧
      A.Reaches G p before after [.node a cs] w₀ w' us' out := by
  obtain ⟨out, w₁, us', hwithin, reachedT⟩ :=
    reaches_within walksT ready lifts.admitted inactive grown.shown grown.children
  have grown₁ := grown.reaches reachedT (hwithin.sound ready.sound)
  have stands₁ := stands.of_frame grown₁.frame grown₁.sound.linked (by simp) (by simp)
  cases out with
  | exhausted => exact absurd rfl reachedT.ended
  | failed fault =>
    exact ⟨_, w₁, [.node a cs], hwithin.bind_failed, by simp, grown₁.frame.mono (by simp) (by simp),
      stands₁.shown, fun m hm => Or.inl hm, stands₁.children,
      lifts.template us' w₁ fault reachedT.yields⟩
  | done result =>
    obtain ⟨out, w₂, cs', hwalk, sound₂, reached⟩ :=
      walks w₁ a.id [] (ready.of_frame reachedT.frame grown₁.sound) stands₁.below stands₁.own
    have hstart : (w₁.store.links a.id).firstChild = (roots cs).head? := by
      rw [grown₁.sound.linked.firstChild, stands₁.own]
    rw [← hstart] at hwalk
    have hlast : (Script.read (·.lastLeaf tree) : Script σ Empty NodeId).run w₁ =
        (.done (w₁.store.lastLeaf tree), w₁) := run_read ..
    cases out with
    | exhausted => exact absurd rfl reached.ended
    | failed fault =>
      exact ⟨_, w₂, [.node a cs'], hwithin.bind (.step hlast hwalk.walk.bind_failed), by simp,
        .around stands (grown₁.frame.mono (by simp) (by simp)) stands₁.element reached
          (lifts.own us' cs' w₁ w₂ fault reachedT.yields reached.yields)⟩
    | done result =>
      obtain ⟨w', concludes, frame, shown, hp⟩ := reaches_replaced stands grown₁ reached sound₂
      refine ⟨_, w', giveAll a.element (Outline.graft us' cs'),
        hwithin.bind (.step hlast (hwalk.walk.bind (.of_run concludes.run))),
        fun _ => concludes.empty, by rwa [ids_singleton], shown, ?_, by simpa using hp,
        lifts.done us' cs' w₁ w₂ _ w' grown₁ reachedT.yields reached.yields concludes⟩
      intro m hm
      rw [ids_giveAll, ids_graft] at hm
      rw [ids_singleton]
      rcases List.mem_append.mp hm with hm | hm
      · exact Or.inr (grown₁.fresh m (by simp [hm]))
      · exact (reached.origin m hm).imp (List.mem_cons_of_mem _) fun hnew hm' =>
          hnew (grown₁.frame.held m hm')

/-- A node whose name has a template that is not under expansion, once that template is read, is
replaced with nothing left below it; or its resolution fails. -/
theorem reaches_replace {name text : String} {state : σ}
    (walksT : ∀ g, A.Walks (visitUnder c g) (A.Ready g (G.insert x)) (G.insert x) us)
    (walks : A.Walks (visitUnder c g) (A.Ready g G) G cs) (ready : A.Ready g G w₀.store)
    (stands : w₀.store.Stands a cs p before after) (hname : a.element.name = some name)
    (inactive : G.contains x = false) (body : x.body = .template text)
    (lookup : Ends (fun l => (c l.steps).lookup name) w₀
      (.done (some (.snippet x)), { w₀ with state }))
    (parse : Ends (fun l => (c l.steps).parse text)
      { store := (Edit.report (.expanding name text)).apply w₀.store, state } (.done tree, w))
    (grown : Grown w₀ w tree us) (lifts : A.Lifts G a cs x tree p us w₀ w) :
    ∃ out w' us', Ends (visitUnder c g · a.id) w₀ (out, w') ∧
      (out = .done () → w'.store.children a.id = []) ∧
      A.Reaches G p before after [.node a cs] w₀ w' us' out := by
  have hname' : (w₀.store.data a.id).name = some name :=
    (congrArg Element.name stands.element).trans hname
  have inactive' : (w₀.store.guardAt g).contains x = false := ready.guard.symm ▸ inactive
  obtain ⟨out, w', us', hends, hempty, reached⟩ := reaches_settle walksT walks
    (ready.of_frame grown.frame grown.sound) stands grown inactive lifts
  exact ⟨out, w', us', ends_under_of_answer hname' lookup (ends_follow_of_template inactive' body
    (ends_replaceBy_of_done (w := { w₀ with state }) stands.parent parse hends)), hempty, reached⟩

end Account

end SnippetTree
