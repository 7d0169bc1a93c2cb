import SnippetTree.Proofs.Replacing

namespace SnippetTree

open Cell Script Resolution

variable {σ : Type}

namespace Account

variable {A : Account σ} {r : Registry} {c : Nat → Surroundings σ} {w : World σ} {p : NodeId}
  {before after : List NodeId} {a : Cell} {cs : List (Outline Cell)}

/-- Each visit under a guard does what the account says, if walks over the trees of templates and
over what is below the node do. -/
def Follows (A : Account σ) (r : Registry) (c : Nat → Surroundings σ) : Prop :=
  ∀ (G : Guard) (g : GuardId) (w : World σ) (a : Cell) (cs : List (Outline Cell)) (p : NodeId)
    (before after : List NodeId),
    (∀ x e, r.due? G e = some x →
      ∀ g us, A.Walks (visitUnder c g) (A.Ready g (G.insert x)) (G.insert x) us) →
    A.Walks (visitUnder c g) (A.Ready g G) G cs → A.Ready g G w.store →
    w.store.Stands a cs p before after → A.Meets (visitUnder c g) G a cs p before after w

/-- A walk under a guard follows the account. By induction on the snippets that are not under
expansion, of which a template has fewer, and within that on the forest. -/
theorem Follows.walks_under (follows : A.Follows r c) (G : Guard) (g : GuardId)
    (ts : List (Outline Cell)) : A.Walks (visitUnder c g) (A.Ready g G) G ts := by
  induction hk : (r.idle G).length using Nat.strong_induction_on generalizing G g ts with
  | _ k ih =>
    have walksT : ∀ x e, r.due? G e = some x →
        ∀ g us, A.Walks (visitUnder c g) (A.Ready g (G.insert x)) (G.insert x) us :=
      fun x e due g us => ih _ (hk ▸ Registry.length_idle_insert due) _ g us rfl
    induction ts using Outline.forest_induction with
    | nil => exact walks_nil Ready.steady
    | cons a cs ts ihc iht =>
      exact walks_cons Ready.steady (fun w p before after ready stands =>
        follows G g w a cs p before after walksT ihc ready stands) ihc iht

/-- A store in order, before any guard is made. -/
structure Begun (A : Account σ) (s : Store) : Prop where
  sound : s.Sound
  fresh : ∀ n, n ∉ s → A.fresh n

theorem Begun.steady : Steady A.Begun where
  sound := fun _ h => h.sound
  keeps := fun _ _ _ _ h frame sound =>
    ⟨sound, fun n hn => h.fresh n fun hm => hn (frame.held n hm)⟩

theorem Begun.addGuard {s : Store} (h : A.Begun s) :
    A.Ready s.freshGuard {} (Edit.addGuard.apply s) where
  sound := Edit.sound_apply (e := .addGuard) h.sound rfl
  fresh := h.fresh
  held := by simp [Edit.apply, Store.freshGuard]
  guard := by simp [Edit.apply, Store.freshGuard, Store.guardAt]
  admitted := A.admits_empty

theorem frame_addGuard (s : Store) : s.Frame (Edit.addGuard.apply s) [] [] where
  held := fun _ hm => hm
  guards := by
    intro g hg
    have hne : g.index ≠ s.guards.size := by omega
    constructor
    · simp only [Edit.apply, Array.size_push]
      omega
    · simp [Edit.apply, Store.guardAt, Array.getD_eq_getD_getElem?, Array.getElem?_push, hne]
  element := fun _ _ _ => rfl
  children := fun _ _ _ => rfl

theorem Follows.meets_resolveAt (follows : A.Follows r c) (begun : A.Begun w.store)
    (stands : w.store.Stands a cs p before after) :
    A.Meets (fun l => resolveAt (c l.steps) l) {} a cs p before after w := by
  let w₁ : World σ := { w with store := Edit.addGuard.apply w.store }
  have frame := frame_addGuard w.store
  have ready : A.Ready w.store.freshGuard {} w₁.store := begun.addGuard
  have hguard : (newGuard : Script σ Empty GuardId).run w = (.done w.store.freshGuard, w₁) := rfl
  have start : w.Idles w₁ := ⟨rfl, rfl, rfl, rfl⟩
  rcases follows {} w.store.freshGuard w₁ a cs p before after
    (fun x _ _ g us => follows.walks_under _ g us) (follows.walks_under {} w.store.freshGuard cs) ready
    (stands.of_frame frame ready.sound.linked (by simp) (by simp)) with
    ⟨w₂, e, hends, passed⟩ | ⟨out, w₂, us, hends, hempty, reached⟩
  · exact Or.inl ⟨w₂, e, .step hguard hends, frame.trans passed.frame, passed.element,
      fun cs' w' out yields => A.around start (passed.lift cs' w' out yields) (.refl w')⟩
  · exact Or.inr ⟨out, w₂, us, .step hguard hends, hempty, frame.trans reached.frame, reached.shown,
      reached.origin, reached.children, A.around start reached.yields (.refl w₂)⟩

theorem Follows.walks_top (follows : A.Follows r c) (ts : List (Outline Cell)) :
    A.Walks (fun l => resolveAt (c l.steps) l) A.Begun {} ts := by
  induction ts using Outline.forest_induction with
  | nil => exact walks_nil Begun.steady
  | cons a cs ts ihc iht =>
    exact walks_cons Begun.steady (fun w p before after begun stands =>
      follows.meets_resolveAt begun stands) ihc iht

/-- With enough room, the resolution of all below a node ends, and has done what the account says. -/
theorem Follows.resolveBelow_reaches (follows : A.Follows r c) (begun : A.Begun w.store)
    {root : NodeId} {ts : List (Outline Cell)} (shown : w.store.Shows ts)
    (children : w.store.children root = roots ts) :
    ∃ out w' ts', Ends (fun l => resolveBelow (pure (c l.steps)) l root) w (out, w') ∧
      w'.store.Sound ∧ A.Reaches {} root [] [] ts w w' ts' out := by
  obtain ⟨out, w', ts', hwalk, sound, reached⟩ :=
    follows.walks_top ts w root [] begun shown children
  have hstart : (w.store.links root).firstChild = (roots ts).head? := by
    rw [begun.sound.linked.firstChild, children]
  rw [← hstart] at hwalk
  exact ⟨out, w', ts', hwalk.walk, sound, reached⟩

end Account

namespace Rules

variable {ρ : Rules σ} {c : Nat → Surroundings σ} {G : Guard} {g : GuardId} {w w₀ w₁ : World σ}
  {p n tree : NodeId} {before after : List NodeId} {a : Cell} {cs us : List (Outline Cell)}
  {x : Snippet} {text : String}

/-- What the rules say, as an account. -/
def account (ρ : Rules σ) : Account σ where
  yields := ρ.Yields
  fresh := ρ.fresh
  admits := fun _ => True
  admits_empty := trivial
  ended := by
    rintro G ts ts' w w' out h rfl
    cases h
  nil := fun _ w => .done .nil (.refl w)
  append := by
    intro G p before t us' ts ts' w w₁ w' out _ _ h h'
    cases h with
    | done settles passes =>
      cases h' with
      | done settles' passes' => exact .done (settles.append settles') (passes.append passes')
      | failed stops => exact .failed (.skip settles stops)
  append_failed := by
    intro G us us' w w' fault h ts
    cases h with
    | failed stops => exact .failed (stops.append ts)
  around := fun before h after =>
    h.around (.nil before.state before.held) (.nil after.state after.held)

/-- The surroundings, with enough steps for themselves, answer lookups and read templates as the
rules say. -/
structure Depicts (ρ : Rules σ) (c : Nat → Surroundings σ) : Prop where
  lookup : ∀ name (w : World σ), ∃ state, ρ.changes (.lookup name) w.state state ∧
    Ends (fun l => (c l.steps).lookup name) w
      (.done ((ρ.registry.find? name).map .snippet), { w with state })
  parse : ∀ name s text, ρ.registry.find? name = some s → s.body = .template text →
    ∀ w : World σ, w.store.Sound →
      (∃ tree w', Ends (fun l => (c l.steps).parse text) w (.done tree, w') ∧
        w.store.Frame w'.store [] [] ∧ (∀ m, m = tree ∨ w'.store.Above tree m → m ∉ w.store) ∧
        tree ∈ w'.store ∧ ρ.reads text (.ok (w'.store.document tree)) ∧
        ρ.changes (.parse text (w'.store.cells tree)) w.state w'.state) ∨
      ∃ e w', Ends (fun l => (c l.steps).parse text) w (.failed e, w') ∧
        w.store.Frame w'.store [] [] ∧ ρ.reads text (.error e)

/-- Handlers rewrite what their nodes show, and nothing else. -/
def Handles (ρ : Rules σ) (c : Nat → Surroundings σ) : Prop :=
  ∀ name s h, ρ.registry.find? name = some s → s.body = .handler h →
    ∀ (w : World σ) n, w.store.Sound → n ∈ w.store →
      ∃ w', (∀ visit : Limits → NodeId → Script σ Empty Unit,
          Ends (fun l => ((c l.steps).handle h n).serve (visit l)) w (.done (), w')) ∧
        w.store.Redrawn w'.store n (ρ.rewrite h (w.store.element n)) ∧
        ρ.changes (.handle h) w.state w'.state

theorem Describes.depicts {c : Surroundings σ} (h : ρ.Describes c) : ρ.Depicts fun _ => c where
  lookup := by
    intro name w
    obtain ⟨state, hchange, hlookup⟩ := h.lookup name w
    exact ⟨state, hchange, .of_run hlookup⟩
  parse := by
    intro name s text hfind body w sound
    rcases h.parse name s text hfind body w sound with
      ⟨tree, w', hparse, extends', hnew, held, hread, hchange⟩ | ⟨e, w', hparse, extends', hread⟩
    · refine Or.inl ⟨tree, w', .of_run hparse, extends'.frame sound.linked, ?_, held, hread, hchange⟩
      rintro m (rfl | ha) hm
      · exact hnew hm
      · exact hnew (extends'.mem_of_above sound.linked ha hm)
    · exact Or.inr ⟨e, w', .of_run hparse, extends'.frame sound.linked, hread⟩

theorem Describes.handles {c : Surroundings σ} (h : ρ.Describes c) : ρ.Handles fun _ => c := by
  intro name s handler hfind body w n sound hn
  obtain ⟨w', hrun, redrawn, hchange⟩ := h.handle name s handler hfind body w n sound hn
  exact ⟨w', fun visit => ⟨0, fun l _ _ => hrun (visit l)⟩, redrawn, hchange⟩

theorem makes_lookup {name : String} {state : σ} (h : ρ.changes (.lookup name) w.state state) :
    ρ.Makes (.lookup name) w { w with state } :=
  ⟨h, fun _ hm => hm, nofun⟩

theorem makes_parse {e : Element} {state : σ} (h : Account.Grown w₀ w₁ tree us)
    (change : ρ.changes (.parse text (.node ⟨tree, e⟩ us)) state w₁.state) :
    ρ.Makes (.parse text (.node ⟨tree, e⟩ us)) { w₀ with state } w₁ where
  state := change
  held := h.frame.held
  born := by
    rintro _ _ ⟨⟩
    rw [ids_singleton, List.nodup_cons]
    exact ⟨⟨h.shown.not_mem_ids h.sound.linked h.children, h.shown.nodup h.sound.linked h.children⟩,
      fun m hm => ⟨h.fresh m hm, h.mem m hm⟩⟩

theorem ends_of_not_due (depicts : ρ.Depicts c) (guard : w.store.guardAt g = G)
    (due : ρ.registry.due? G (w.store.element n) = none) :
    ∃ w₁, Ends (visitUnder c g · n) w (.done (), w₁) ∧ w.store.Rests w₁.store ∧
      w.store.KeepsGuards w₁.store ∧ ρ.Passes (Event.ofCell ⟨n, w.store.element n⟩) w w₁ := by
  cases hname : (w.store.element n).name with
  | none =>
    refine ⟨w, ends_under_of_nameless hname, .refl _, .refl _, ?_⟩
    rw [Event.ofCell, hname]
    exact .nil rfl fun _ hm => hm
  | some name =>
    obtain ⟨state, hchange, hlookup⟩ := depicts.lookup name w
    have hpass : ∀ w₁ : World σ, w₁.state = state → (∀ m ∈ w.store, m ∈ w₁.store) →
        ρ.Passes (Event.ofCell ⟨n, w.store.element n⟩) w w₁ := by
      intro w₁ hstate held
      rw [Event.ofCell, hname]
      exact .cons (makes_lookup hchange) (.nil hstate held)
    cases hfind : ρ.registry.find? name with
    | none =>
      rw [hfind] at hlookup
      exact ⟨_, ends_under_of_unknown hname hlookup, .refl _, .refl _, hpass _ rfl fun _ hm => hm⟩
    | some s =>
      rw [hfind] at hlookup
      have active := Registry.due?_eq_none_iff.mp due name s hname hfind
      rw [← guard] at active
      exact ⟨_, ends_under_of_answer hname hlookup (ends_follow_of_active active), ⟨rfl, rfl, rfl⟩,
        .of_eq rfl, hpass _ rfl fun _ hm => hm⟩

theorem Depicts.meets_keep {A : Account σ} (depicts : ρ.Depicts c) (ready : A.Ready g G w.store)
    (stands : w.store.Stands a cs p before after) (due : ρ.registry.due? G a.element = none)
    (keep : ∀ cs' w₁ w' out, ρ.Passes (Event.ofCell a) w w₁ → w.store.Rests w₁.store →
      A.yields G cs cs' w₁ w' out → A.yields G [.node a cs] [.node a cs'] w w' out) :
    A.Meets (visitUnder c g) G a cs p before after w := by
  rw [← stands.element] at due
  obtain ⟨w₁, hends, rests, guards, hpass⟩ := ends_of_not_due depicts ready.guard due
  have frame := rests.frame guards
  rw [stands.element] at hpass
  exact Or.inl ⟨w₁, a.element, hends, frame.mono (by simp) (by simp),
    (frame.element a.id stands.mem (by simp)).trans stands.element,
    fun cs' w' out yields => keep cs' w₁ w' out hpass rests yields⟩

theorem meets_keep (depicts : ρ.Depicts c) (ready : ρ.account.Ready g G w.store)
    (stands : w.store.Stands a cs p before after) (due : ρ.registry.due? G a.element = none) :
    ρ.account.Meets (visitUnder c g) G a cs p before after w := by
  refine depicts.meets_keep ready stands due fun cs' w₁ w' out hpass _ yields => ?_
  cases yields with
  | done settles passes =>
    refine .done (.keep due settles .nil) ?_
    rw [List.append_nil]
    exact hpass.append passes
  | failed stops => exact .failed (.keep due stops)

theorem meets_handle {h : HandlerId} (depicts : ρ.Depicts c) (handles : ρ.Handles c)
    (ready : ρ.account.Ready g G w.store) (stands : w.store.Stands a cs p before after)
    (due : ρ.registry.due? G a.element = some x) (body : x.body = .handler h) :
    ρ.account.Meets (visitUnder c g) G a cs p before after w := by
  obtain ⟨name, hname, hfind, inactive⟩ := Registry.due?_eq_some_iff.mp due
  rw [← ready.guard] at inactive
  obtain ⟨state, hchange, hlookup⟩ := depicts.lookup name w
  rw [hfind] at hlookup
  let w₁ : World σ := { store := (Edit.report (.passing name)).apply w.store, state }
  have sound₁ : w₁.store.Sound :=
    Edit.sound_apply (e := .report (.passing name)) ready.sound rfl
  have helement : w₁.store.element a.id = a.element := stands.element
  obtain ⟨w₂, hrun, redrawn, hchange'⟩ := handles name x h hfind body w₁ a.id sound₁ stands.mem
  rw [helement] at redrawn
  have hname' : (w.store.data a.id).name = some name :=
    (congrArg Element.name stands.element).trans hname
  have hends : Ends (visitUnder c g · a.id) w (.done (), w₂) :=
    ends_under_of_answer hname' hlookup (ends_follow_of_handler inactive body (hrun _))
  have hpass : ρ.Passes (Event.ofCell a ++ [.handle a.id h]) w w₂ := by
    rw [Event.ofCell, hname]
    exact .cons (makes_lookup hchange) (.one ⟨hchange', redrawn.held, nofun⟩)
  refine Or.inl ⟨w₂, ρ.rewrite h a.element, hends,
    (Store.Frame.report w.store _).trans (redrawn.frame sound₁.linked), redrawn.element,
    fun cs' state out yields => ?_⟩
  cases yields with
  | done settles passes =>
    refine .done (.handle due body settles .nil) ?_
    rw [List.append_nil]
    exact hpass.append passes
  | failed stops => exact .failed (.handle due body stops)

theorem lifts_of_read {top : Cell} (fresh : ∀ m ∈ ids us, ρ.fresh m)
    (due : ρ.registry.due? G a.element = some x) (body : x.body = .template text)
    (read : ρ.reads text (.ok (.node top.element (us.map (Outline.map Cell.element)))))
    (passes : ρ.Passes (Event.ofCell a ++ [.parse (G.insert x) text (.node top us)]) w₀ w) :
    ρ.account.Lifts G a cs x tree p us w₀ w where
  admitted := trivial
  template := by
    intro us' w₁ fault h
    cases h with
    | failed stops => exact .failed (.template due body read stops)
  own := by
    intro us' cs' w₁ w₂ fault h h'
    cases h with
    | done settles _ =>
      cases h' with
      | failed stops => exact .failed (.own due body read settles stops)
  done := by
    intro us' cs' w₁ w₂ last w' _ h h' concludes
    cases h with
    | done settles passesT =>
      cases h' with
      | done settles' passes' =>
        have hsettles := Settles.replace due body read fresh settles settles' .nil
        rw [List.append_nil, List.append_nil] at hsettles
        have hpass := ((passes.append passesT).append passes').append
          (.nil concludes.state concludes.keeps)
        rw [List.append_nil] at hpass
        exact .done hsettles hpass

theorem Depicts.exists_grown {name : String} (depicts : ρ.Depicts c)
    (hfind : ρ.registry.find? name = some x) (body : x.body = .template text)
    (sound : w.store.Sound) :
    (∃ tree w₁ us, Ends (fun l => (c l.steps).parse text) w (.done tree, w₁) ∧
      Account.Grown w w₁ tree us ∧
      ρ.reads text (.ok (.node (w₁.store.element tree) (us.map (Outline.map Cell.element)))) ∧
      ρ.changes (.parse text (.node ⟨tree, w₁.store.element tree⟩ us)) w.state w₁.state) ∨
    ∃ e w₁, Ends (fun l => (c l.steps).parse text) w (.failed e, w₁) ∧
      w.store.Frame w₁.store [] [] ∧ ρ.reads text (.error e) := by
  refine (depicts.parse name x text hfind body w sound).imp_left ?_
  rintro ⟨tree, w₁, hparse, frame, hnew, held, hread, hchange⟩
  have linked := (hparse.sound sound).linked
  obtain ⟨us, hus, shown⟩ := linked.exists_shows (w₁.store.children tree)
  rw [shown.document_eq linked hus.symm] at hread
  rw [shown.cells_eq linked hus.symm] at hchange
  have hfresh : ∀ m ∈ tree :: ids us, m ∉ w.store := by
    intro m hm
    refine hnew m ((List.mem_cons.mp hm).imp_right fun hm => ?_)
    exact (shown.mem_ids_iff_above linked hus.symm).mp hm
  exact ⟨tree, w₁, us, hparse, ⟨hparse.sound sound, frame, shown, hus.symm, hfresh, held⟩, hread,
    hchange⟩

theorem Depicts.reaches_replace {A : Account σ} (depicts : ρ.Depicts c)
    (walksT : ∀ g us, A.Walks (visitUnder c g) (A.Ready g (G.insert x)) (G.insert x) us)
    (walks : A.Walks (visitUnder c g) (A.Ready g G) G cs) (ready : A.Ready g G w.store)
    (stands : w.store.Stands a cs p before after)
    (due : ρ.registry.due? G a.element = some x) (body : x.body = .template text)
    (lifts : ∀ w₁ w₂ tree us, w₁.store.Sound → w.store.Rests w₁.store →
      Ends (fun l => (c l.steps).parse text) w₁ (.done tree, w₂) → Account.Grown w w₂ tree us →
      ρ.reads text (.ok (.node (w₂.store.element tree) (us.map (Outline.map Cell.element)))) →
      ρ.Passes (Event.ofCell a ++ [.parse (G.insert x) text
        (.node ⟨tree, w₂.store.element tree⟩ us)]) w w₂ → A.Lifts G a cs x tree p us w w₂)
    (unread : ∀ w₁ w₂ e, w₁.store.Sound → ρ.Passes (Event.ofCell a) w w₁ → w.store.Rests w₁.store →
      Ends (fun l => (c l.steps).parse text) w₁ (.failed e, w₂) → ρ.reads text (.error e) →
      A.yields G [.node a cs] [.node a cs] w w₂
        (.failed (.because (.unparsable text e.message a.element.name) e))) :
    ∃ out w' us, Ends (visitUnder c g · a.id) w (out, w') ∧
      (out = .done () → w'.store.children a.id = []) ∧
      A.Reaches G p before after [.node a cs] w w' us out := by
  obtain ⟨name, hname, hfind, inactive⟩ := Registry.due?_eq_some_iff.mp due
  obtain ⟨state, hchange, hlookup⟩ := depicts.lookup name w
  rw [hfind] at hlookup
  let w₁ : World σ := { store := (Edit.report (.expanding name text)).apply w.store, state }
  have sound₁ : w₁.store.Sound :=
    Edit.sound_apply (e := .report (.expanding name text)) ready.sound rfl
  have frame₁ : w.store.Frame w₁.store [] [] := .report w.store _
  have rests : w.store.Rests w₁.store := ⟨rfl, rfl, rfl⟩
  rcases depicts.exists_grown hfind body sound₁ with
    ⟨tree, w₂, us, hparse, grown₁, hread, hchange'⟩ | ⟨e, w₂, hparse, frame₂, hread⟩
  · have grown : Account.Grown w w₂ tree us := grown₁.of_earlier frame₁
    have hpass : ρ.Passes (Event.ofCell a ++ [.parse (G.insert x) text
        (.node ⟨tree, w₂.store.element tree⟩ us)]) w w₂ := by
      rw [Event.ofCell, hname]
      exact .cons (makes_lookup hchange) (.one (makes_parse grown hchange'))
    exact Account.reaches_replace (fun g => walksT g us) walks ready stands hname inactive body hlookup
      hparse grown (lifts w₁ w₂ tree us sound₁ rests hparse grown hread hpass)
  · have frame := frame₁.trans frame₂
    have stands₂ := stands.of_frame frame (hparse.sound sound₁).linked (by simp) (by simp)
    have hname' : (w.store.data a.id).name = some name :=
      (congrArg Element.name stands.element).trans hname
    have hpass : ρ.Passes (Event.ofCell a) w w₁ := by
      rw [Event.ofCell, hname]
      exact .one ⟨hchange, frame₁.held, nofun⟩
    have yields := unread w₁ w₂ e sound₁ hpass rests hparse hread
    rw [hname] at yields
    rw [← ready.guard] at inactive
    exact ⟨_, w₂, [.node a cs], ends_under_of_answer hname' hlookup (ends_follow_of_template
      inactive body (ends_replaceBy_of_failed (w := { w with state }) stands.parent hparse)), by simp,
      frame.mono (by simp) (by simp), stands₂.shown, fun m hm => Or.inl hm, stands₂.children, yields⟩

theorem reaches_replace (depicts : ρ.Depicts c)
    (walksT : ∀ g us, ρ.account.Walks (visitUnder c g) (ρ.account.Ready g (G.insert x)) (G.insert x) us)
    (walks : ρ.account.Walks (visitUnder c g) (ρ.account.Ready g G) G cs)
    (ready : ρ.account.Ready g G w.store) (stands : w.store.Stands a cs p before after)
    (due : ρ.registry.due? G a.element = some x) (body : x.body = .template text) :
    ∃ out w' us, Ends (visitUnder c g · a.id) w (out, w') ∧
      (out = .done () → w'.store.children a.id = []) ∧
      ρ.account.Reaches G p before after [.node a cs] w w' us out := by
  refine depicts.reaches_replace walksT walks ready stands due body
    (fun w₁ w₂ tree us _ _ _ grown hread hpass => ?_) fun w₁ w₂ e _ _ _ _ hread =>
      .failed (.unread due body hread)
  exact lifts_of_read (fun m hm => ready.fresh m (grown.fresh m (by simp [hm]))) due body hread hpass

/-- Resolutions follow the rules. -/
theorem follows (depicts : ρ.Depicts c) (handles : ρ.Handles c) :
    ρ.account.Follows ρ.registry c := by
  intro G g w a cs p before after walksT walks ready stands
  cases due : ρ.registry.due? G a.element with
  | none => exact meets_keep depicts ready stands due
  | some x =>
    cases body : x.body with
    | handler h => exact meets_handle depicts handles ready stands due body
    | template text =>
      exact Or.inr (reaches_replace depicts (walksT x a.element due) walks ready stands due body)

theorem Describes.follows {c : Surroundings σ} (h : ρ.Describes c) :
    ρ.account.Follows ρ.registry fun _ => c :=
  Rules.follows h.depicts h.handles

/-- With enough room, the resolution of all below a node ends, and has done what the rules say. -/
theorem resolveBelow_reaches {c : Surroundings σ} (describes : ρ.Describes c)
    (begun : ρ.account.Begun w.store) {root : NodeId} {ts : List (Outline Cell)}
    (shown : w.store.Shows ts) (children : w.store.children root = roots ts) :
    ∃ out w' ts', Ends (fun l => resolveBelow (pure c) l root) w (out, w') ∧ w'.store.Sound ∧
      ρ.account.Reaches {} root [] [] ts w w' ts' out :=
  describes.follows.resolveBelow_reaches begun shown children

/-- Where no reading of a template fails, the resolution succeeds, and what is below the node becomes
what the rules say. -/
theorem resolveBelow_settles {c : Surroundings σ} (describes : ρ.Describes c)
    (begun : ρ.account.Begun w.store) (reads : ∀ text e, ¬ρ.reads text (.error e)) (root : NodeId) :
    ∃ w' es, Ends (fun l => resolveBelow (pure c) l root) w (.done (), w') ∧ w'.store.Sound ∧
      ρ.Settles {} (w.store.forest root) es (w'.store.forest root) ∧ ρ.Passes es w w' := by
  have linked := begun.sound.linked
  obtain ⟨out, w', ts', hends, sound', reached⟩ :=
    resolveBelow_reaches describes begun linked.shows_forest (linked.children_eq_forest (n := root))
  have hforest : w'.store.forest root = ts' :=
    reached.shown.forest_eq sound'.linked (by simpa using reached.children)
  cases reached.yields with
  | done settles passes => exact ⟨w', _, hends, sound', hforest ▸ settles, passes⟩
  | failed stops => exact absurd stops (not_stops_of_reads reads)

end Rules

end SnippetTree
