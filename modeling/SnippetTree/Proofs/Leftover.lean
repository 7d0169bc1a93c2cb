import SnippetTree.Proofs.Traced

namespace SnippetTree

open Cell Resolution

variable {σ : Type}

/-- The node was brought in by the tree of a template that was resolved with the snippet under
expansion. -/
def Event.Brought (es : List Event) (s : Snippet) (n : NodeId) : Prop :=
  ∃ active text tree, .parse active text tree ∈ es ∧ active.contains s = true ∧
    n ∈ ids tree.children

theorem Event.Brought.mono {es es' : List Event} {s : Snippet} {n : NodeId}
    (h : Event.Brought es s n) (sub : es ⊆ es') : Event.Brought es' s n := by
  obtain ⟨active, text, tree, hmem, hrest⟩ := h
  exact ⟨active, text, tree, sub hmem, hrest⟩

/-- The snippets that a forest mentions all rank below the given one. -/
def Registry.RanksBelow (r : Registry) (rank : Snippet → Nat) (x : Snippet)
    (ts : List (Outline Element)) : Prop :=
  ∀ e ∈ Outline.labels ts, ∀ y, e.name.bind r.find? = some y → rank y < rank x

/-- No template leads back to itself: the snippets can be ranked so that whatever is below the root
of a tree that is read mentions snippets of lower rank only. -/
def Registry.Acyclic (r : Registry) (c : Surroundings σ) : Prop :=
  ∃ rank : Snippet → Nat, ∀ name x text, r.find? name = some x → x.body = .template text →
    ∀ (w w' : World σ) tree, w.store.Sound → (c.parse text).run w = (.done tree, w') →
      r.RanksBelow rank x (w'.store.document tree).children

theorem mem_labels_giveAll {e : Element} {b : Cell} {ts : List (Outline Cell)}
    (h : b ∈ Outline.labels (giveAll e ts)) :
    ∃ a ∈ Outline.labels ts, b.id = a.id ∧ b.element.name = a.element.name := by
  induction ts with
  | nil => cases h
  | cons t ts ih =>
    obtain ⟨a, cs⟩ := t
    rw [giveAll_cons, Outline.labels_cons, List.mem_cons, List.mem_append] at h
    rw [Outline.labels_cons]
    rcases h with rfl | h | h
    · exact ⟨a, by simp, rfl, rfl⟩
    · exact ⟨b, by simp [h], rfl, rfl⟩
    · obtain ⟨a', ha', hsame⟩ := ih h
      exact ⟨a', by simp [ha'], hsame⟩

namespace Rules

variable {ρ : Rules σ} {g : Guard} {ts ts' : List (Outline Cell)} {es : List Event}

/-- A node of the forest with a snippet under expansion, or one brought in while its snippet was. -/
def Left (g : Guard) (ts : List (Outline Cell)) (es : List Event) (s : Snippet) (n : NodeId) :
    Prop :=
  (g.contains s = true ∧ n ∈ ids ts) ∨ Event.Brought es s n

theorem Left.mono {s : Snippet} {n : NodeId} {us : List (Outline Cell)} {es' : List Event}
    (h : Left g ts es s n) (nodes : ids ts ⊆ ids us) (events : es ⊆ es') : Left g us es' s n :=
  h.imp (fun h => ⟨h.1, nodes h.2⟩) fun h => h.mono events

theorem contains_of_not_due {e : Element} {s : Snippet} (due : ρ.registry.due? g e = none)
    (hs : e.name.bind ρ.registry.find? = some s) : g.contains s = true := by
  obtain ⟨name, hname, hfind⟩ := Option.bind_eq_some_iff.mp hs
  exact Registry.due?_eq_none_iff.mp due name s hname hfind

/-- A node that still has a snippet after the resolution was left. -/
theorem Settles.leftover (templates : ρ.registry.OfTemplates) (h : ρ.Settles g ts es ts') :
    ∀ b ∈ Outline.labels ts', ∀ s, b.element.name.bind ρ.registry.find? = some s →
      Left g ts es s b.id := by
  induction h with
  | nil => simp
  | keep due _ _ ihc iht =>
    intro b hb s hs
    rw [Outline.labels_cons, List.mem_cons, List.mem_append] at hb
    rcases hb with rfl | hb | hb
    · exact Or.inl ⟨contains_of_not_due due hs, by simp⟩
    · exact (ihc b hb s hs).mono (fun _ h => by simp [h]) fun _ h => by simp [h]
    · exact (iht b hb s hs).mono (fun _ h => by simp [h]) fun _ h => by simp [h]
  | handle due body => exact absurd body (templates.not_handler due)
  | @replace g a _ _ _ _ us _ _ _ _ x text top due _ _ _ _ _ _ ihu ihc iht =>
    intro b hb s hs
    rw [Outline.labels_append, List.mem_append] at hb
    rcases hb with hb | hb
    · obtain ⟨b', hb', hid, hname⟩ := mem_labels_giveAll hb
      rw [hname] at hs
      rw [hid]
      rw [Outline.labels_graft, List.mem_append] at hb'
      rcases hb' with hb' | hb'
      · -- What the template's tree leaves came with that tree, or with one read further in.
        refine Or.inr ((ihu b' hb' s hs).elim (fun h => ?_) fun h => h.mono fun _ he => by simp [he])
        exact ⟨g.insert x, text, .node top us, by simp, h⟩
      · exact (ihc b' hb' s hs).mono (fun _ h => by simp [h]) fun _ h => by simp [h]
    · exact (iht b hb s hs).mono (fun _ h => by simp [h]) fun _ h => by simp [h]

theorem Settles.unmatched {rank : Snippet → Nat} (templates : ρ.registry.OfTemplates)
    (reads : ∀ text t, ρ.reads text (.ok t) → ∀ name x, ρ.registry.find? name = some x →
      x.body = .template text → ρ.registry.RanksBelow rank x t.children)
    (h : ρ.Settles g ts es ts') (ranked : ∀ x, g.contains x = true →
      ρ.registry.RanksBelow rank x (ts.map (Outline.map Cell.element))) :
    ∀ b ∈ Outline.labels ts', ρ.registry.matched b.element = false := by
  induction h with
  | nil => simp
  | @keep g a cs _ ts _ _ _ due _ _ ihc iht =>
    simp only [List.map_cons, Outline.map_node] at ranked
    intro b hb
    rw [Outline.labels_cons, List.mem_cons, List.mem_append] at hb
    rcases hb with rfl | hb | hb
    · cases hs : b.element.name.bind ρ.registry.find? with
      | none => rw [Registry.matched, hs, Option.isSome_none]
      | some s =>
        have hless := ranked s (contains_of_not_due due hs) b.element (by simp) s hs
        omega
    · exact ihc (fun x hx e he => ranked x hx e (by simp [he])) b hb
    · exact iht (fun x hx e he => ranked x hx e (by simp [he])) b hb
  | handle due body => exact absurd body (templates.not_handler due)
  | @replace g a cs _ ts _ us _ _ _ _ x text top due body read _ _ _ _ ihu ihc iht =>
    simp only [List.map_cons, Outline.map_node] at ranked
    obtain ⟨name, hname, hfind, _⟩ := Registry.due?_eq_some_iff.mp due
    have below := reads text _ read name x hfind body
    have inner : ∀ y, (g.insert x).contains y = true →
        ρ.registry.RanksBelow rank y (us.map (Outline.map Cell.element)) := by
      intro y hy e he s hs
      have hsx := below e he s hs
      rw [Guard.contains_insert, Bool.or_eq_true, beq_iff_eq] at hy
      rcases hy with rfl | hy
      · exact hsx
      · exact hsx.trans (ranked y hy a.element (by simp) x (by simp [hname, hfind]))
    intro b hb
    rw [Outline.labels_append, List.mem_append] at hb
    rcases hb with hb | hb
    · obtain ⟨b', hb', _, hname⟩ := mem_labels_giveAll hb
      rw [Registry.matched, hname]
      rw [Outline.labels_graft, List.mem_append] at hb'
      rcases hb' with hb' | hb'
      · exact ihu inner b' hb'
      · exact ihc (fun x hx e he => ranked x hx e (by simp [he])) b' hb'
    · exact iht (fun x hx e he => ranked x hx e (by simp [he])) b hb

end Rules

namespace Store

variable {s s' s'' : Store} {ts : List (Outline Cell)}

/-- The second store is the first one, but for its guards. -/
def Untouched (s s' : Store) : Prop := s' = { s with guards := s'.guards }

theorem Untouched.refl (s : Store) : s.Untouched s := rfl

theorem Untouched.trans (h : s.Untouched s') (h' : s'.Untouched s'') : s.Untouched s'' := by
  rw [Untouched] at h h' ⊢
  rw [h', h]

theorem Untouched.links (h : s.Untouched s') (n : NodeId) : s'.links n = s.links n := by
  rw [Untouched] at h
  rw [h]
  rfl

theorem Untouched.children (h : s.Untouched s') (n : NodeId) : s'.children n = s.children n := by
  rw [Untouched] at h
  rw [h]
  rfl

theorem Untouched.element (h : s.Untouched s') (n : NodeId) : s'.element n = s.element n := by
  rw [Untouched] at h
  rw [h]
  rfl

theorem Untouched.linked (h : s.Untouched s') (linked : s.WellLinked) : s'.WellLinked :=
  linked.congr h.links

theorem Untouched.shows (h : s.Untouched s') (shown : s.Shows ts) : s'.Shows ts :=
  shown.congr fun m _ => ⟨h.element m, h.children m⟩

end Store

section Unmatched

variable {r : Registry} {log : σ → List Call} {c : Surroundings σ} {w : World σ} {n : NodeId}

/-- The lookups made for a forest of which nothing is registered. -/
def Cell.lookups (ts : List (Outline Cell)) : List Call :=
  ((Outline.labels ts).filterMap fun a => a.element.name).map .lookup

theorem lookups_cons (a : Cell) (cs ts : List (Outline Cell)) :
    lookups (.node a cs :: ts) =
      (a.element.name.map Call.lookup).toList ++ (lookups cs ++ lookups ts) := by
  cases h : a.element.name <;> simp [lookups, h]

theorem ends_resolveAt_of_unmatched (describes : (r.logging log).Describes c) {a : Cell}
    (element : w.store.element a.id = a.element) (unmatched : r.matched a.element = false) :
    ∃ w', Ends (resolveAt c · a.id) w (.done (), w') ∧ w.store.Untouched w'.store ∧
      log w'.state = log w.state ++ (a.element.name.map Call.lookup).toList := by
  let w₁ : World σ := { w with store := Edit.addGuard.apply w.store }
  have hguard : (Script.newGuard : Script σ Empty GuardId).run w =
    (.done w.store.freshGuard, w₁) := rfl
  cases hname : a.element.name with
  | none =>
    have hname₁ : (w₁.store.data a.id).name = none := (congrArg Element.name element).trans hname
    exact ⟨w₁, .step hguard (ends_under_of_nameless (c := fun _ => c) hname₁), rfl, by simp [w₁]⟩
  | some name =>
    have hname₁ : (w₁.store.data a.id).name = some name :=
      (congrArg Element.name element).trans hname
    obtain ⟨state, hlog, hlookup⟩ := describes.lookup name w₁
    have hfind : r.find? name = none := by
      rw [Registry.matched, hname] at unmatched
      exact Option.isSome_eq_false_iff.mp unmatched |> Option.isNone_iff_eq_none.mp
    have hunknown : (c.lookup name).run w₁ = (.done none, { w₁ with state }) := by
      rw [hlookup]
      change (Outcome.done ((r.find? name).map Answer.snippet), _) = _
      rw [hfind]
      rfl
    exact ⟨_, .step hguard (ends_under_of_unknown (c := fun _ => c) hname₁ (.of_run hunknown)), rfl, hlog⟩

theorem walkEnds_unmatched (describes : (r.logging log).Describes c) (ts : List (Outline Cell))
    (unmatched : ∀ a ∈ Outline.labels ts, r.matched a.element = false) (p : NodeId)
    (before : List NodeId) (linked : w.store.WellLinked) (shown : w.store.Shows ts)
    (children : w.store.children p = before ++ roots ts) :
    ∃ w', WalkEnds (resolveAt c) (roots ts).head? w (.done (), w') ∧ w.store.Untouched w'.store ∧
      log w'.state = log w.state ++ lookups ts := by
  induction ts using Outline.forest_induction generalizing w p before with
  | nil => exact ⟨w, .none w, .refl _, (List.append_nil _).symm⟩
  | cons a cs ts ihc iht =>
    have happend : w.store.Shows ([.node a cs] ++ ts) := shown
    obtain ⟨hfirst, hrest⟩ := happend.of_append
    obtain ⟨element, own, below⟩ := hfirst.of_mem List.mem_cons_self
    obtain ⟨w₁, hvisit, same₁, hlog₁⟩ :=
      ends_resolveAt_of_unmatched describes element (unmatched a (by simp))
    obtain ⟨w₂, hbelow, same₂, hlog₂⟩ := ihc (fun b hb => unmatched b (by simp [hb])) a.id []
      (same₁.linked linked) (same₁.shows below) (by rw [same₁.children, own]; rfl)
    have same := same₁.trans same₂
    obtain ⟨w₃, hwalk, same₃, hlog₃⟩ := iht (fun b hb => unmatched b (by simp [hb])) p
      (before ++ [a.id]) (same.linked linked) (same.shows hrest)
      (by rw [same.children, children, List.append_assoc]; rfl)
    have hstart : (w₁.store.links a.id).firstChild = (roots cs).head? := by
      rw [(same₁.linked linked).firstChild, same₁.children, own]
    have hnext : (w.store.links a.id).nextSibling = (roots ts).head? :=
      linked.nextSibling_eq children
    rw [← hstart] at hbelow
    rw [← hnext] at hwalk
    refine ⟨w₃, .cons (.of_done hvisit hbelow) hwalk, same.trans same₃, ?_⟩
    rw [hlog₃, hlog₂, hlog₁, lookups_cons, List.append_assoc, List.append_assoc]

/-- Where nothing below the root is registered, a resolution changes nothing but the guards that it
makes for itself, and reads no template. -/
theorem ends_resolveBelow_of_unmatched (describes : (r.logging log).Describes c) {root : NodeId}
    (linked : w.store.WellLinked)
    (unmatched : ∀ n, w.store.Above root n → r.matched (w.store.element n) = false) :
    ∃ w', Ends (fun l => resolveBelow (pure c) l root) w (.done (), w') ∧
      w.store.Untouched w'.store ∧ log w'.state = log w.state ++ lookups (w.store.forest root) := by
  have shown : w.store.Shows (w.store.forest root) := linked.shows_forest
  have children : w.store.children root = roots (w.store.forest root) := linked.children_eq_forest
  have none_due : ∀ a ∈ Outline.labels (w.store.forest root), r.matched a.element = false :=
    fun a ha => shown.element_eq ha ▸
      unmatched a.id (linked.mem_forest_iff.mp (List.mem_map_of_mem ha))
  obtain ⟨w', hwalk, same, hlog⟩ :=
    walkEnds_unmatched describes _ none_due root [] linked shown children
  have hstart : (w.store.links root).firstChild = (roots (w.store.forest root)).head? := by
    rw [linked.firstChild, children]
  rw [← hstart] at hwalk
  exact ⟨w', hwalk.walk, same, hlog⟩

end Unmatched

section Acyclic

variable {r : Registry} {log : σ → List Call} {c : Surroundings σ} {w w' w'' : World σ}

theorem Ends.unique {α : Type} {p : Limits → Script σ Empty α} {out out' : Outcome α}
    (h : Ends p w (out, w')) (h' : Ends p w (out', w'')) : w' = w'' := by
  obtain ⟨k, hk⟩ := h
  obtain ⟨k', hk'⟩ := h'
  have hrun := hk ⟨max k k', max k k'⟩ (le_max_left k k') (le_max_left k k')
  rw [hk' ⟨max k k', max k k'⟩ (le_max_right k k') (le_max_right k k')] at hrun
  exact (congrArg Prod.snd hrun).symm

/-- Surroundings that read templates of ranked snippets, each to a tree of lower ones. -/
def Registry.ranked (r : Registry) (log : σ → List Call) (rank : Snippet → Nat) : Rules σ :=
  { r.logging log with
    reads := fun text out => ∃ t, out = .ok t ∧ ∀ name x, r.find? name = some x →
      x.body = .template text → r.RanksBelow rank x t.children }

theorem Registry.ranked_describes {rank : Snippet → Nat} (describes : (r.logging log).Describes c)
    (ranks : ∀ name x text, r.find? name = some x → x.body = .template text →
      ∀ (w w' : World σ) tree, w.store.Sound → (c.parse text).run w = (.done tree, w') →
        r.RanksBelow rank x (w'.store.document tree).children) :
    (r.ranked log rank).Describes c :=
  describes.narrow
    (fun _ _ text _ _ w tree w' sound hrun => ⟨_, rfl, fun name x hfind body =>
      ranks name x text hfind body w w' tree sound hrun⟩)
    fun _ _ h => absurd h Registry.reads_ne_error

/-- If no template leads back to itself, nothing below the root is registered after a resolution. -/
theorem ends_resolveBelow_of_acyclic (templates : r.OfTemplates)
    (describes : (r.logging log).Describes c) (acyclic : r.Acyclic c) (sound : w.store.Sound)
    (root : NodeId) :
    ∃ w', Ends (fun l => resolveBelow (pure c) l root) w (.done (), w') ∧
      ∀ n, w'.store.Above root n → r.matched (w'.store.element n) = false := by
  obtain ⟨rank, ranks⟩ := acyclic
  have reads : ∀ text t, (r.ranked log rank).reads text (.ok t) → ∀ name x,
      r.find? name = some x → x.body = .template text → r.RanksBelow rank x t.children := by
    rintro text t ⟨t', ht, below⟩
    cases ht
    exact below
  obtain ⟨w', es, hends, sound', settles, _⟩ := Rules.resolveBelow_settles
    (Registry.ranked_describes describes ranks) ⟨sound, fun _ _ => trivial⟩
    (fun _ _ ⟨_, h, _⟩ => by cases h) root
  refine ⟨w', hends, fun n hn => ?_⟩
  obtain ⟨a, ha, rfl, helement⟩ := sound'.linked.exists_cell hn
  rw [← helement]
  exact settles.unmatched templates reads (fun x hx => by cases hx) a ha

end Acyclic

/-- What is left registered below the root after a resolution with these events, and what a further
resolution does. -/
structure Registry.Leaves (r : Registry) (log : σ → List Call) (c : Surroundings σ) (w : World σ)
    (root : NodeId) (es : List Event) : Prop where
  brought : ∀ n s, w.store.Above root n →
    (w.store.element n).name.bind r.find? = some s → Event.Brought es s n
  unmatched : r.Acyclic c → ∀ n, w.store.Above root n → r.matched (w.store.element n) = false
  again : r.Acyclic c → ∃ k w', (∀ limits : Limits, k ≤ limits.depth → k ≤ limits.steps →
      (resolveBelow (pure c) limits root).run w = (.done (), w')) ∧
    w.store.Untouched w'.store ∧ log w'.state = log w.state ++ lookups (w.store.forest root)

/-- A resolution leaves registered names only where their snippets were under expansion already. If
no template leads back to itself, it leaves none, and the same resolution again changes nothing but
the guards that it makes for itself, and reads no template. -/
theorem resolveBelow_leaves (r : Registry) (templates : r.OfTemplates) (log : σ → List Call)
    (c : Surroundings σ) (describes : (r.logging log).Describes c) (w : World σ)
    (sound : w.store.Sound) (root : NodeId) :
    ∃ k w' es, (∀ limits : Limits, k ≤ limits.depth → k ≤ limits.steps →
        (resolveBelow (pure c) limits root).run w = (.done (), w')) ∧
      log w'.state = log w.state ++ es.map Event.call ∧ r.Traces {} (w.store.forest root) es ∧
      r.Leaves log c w' root es := by
  obtain ⟨w', es, ⟨k, hk⟩, sound', settles, passes⟩ := Rules.resolveBelow_settles describes
    ⟨sound, fun _ _ => trivial⟩ (fun _ _ => Registry.reads_ne_error) root
  have unmatched : r.Acyclic c →
      ∀ n, w'.store.Above root n → r.matched (w'.store.element n) = false := by
    intro acyclic
    obtain ⟨w₁, hends, hnone⟩ := ends_resolveBelow_of_acyclic templates describes acyclic sound root
    rwa [Ends.unique ⟨k, hk⟩ hends]
  refine ⟨k, w', es, hk, passes.log_eq, .of_settles templates settles, fun n s hn hs => ?_,
    unmatched, fun acyclic => ?_⟩
  · obtain ⟨a, ha, rfl, helement⟩ := sound'.linked.exists_cell hn
    rw [← helement] at hs
    exact (settles.leftover templates a ha s hs).resolve_left fun h => by cases h.1
  · obtain ⟨w'', ⟨k', hk'⟩, same, hlog⟩ :=
      ends_resolveBelow_of_unmatched describes sound'.linked (unmatched acyclic)
    exact ⟨k', w'', hk', same, hlog⟩

theorem Registry.acyclic_recording {r : Registry} {c : Surroundings σ} (h : r.Acyclic c) :
    r.Acyclic c.recording := by
  obtain ⟨rank, ranks⟩ := h
  refine ⟨rank, ?_⟩
  rintro name x text hfind body ⟨s, a, calls⟩ w' tree sound hrun
  obtain ⟨v, hparse, hstore⟩ := Surroundings.exists_of_recording hrun
  rw [hstore]
  exact ranks name x text hfind body ⟨s, a⟩ v tree sound hparse

theorem Registry.acyclic_planting {r : Registry} {trees : String → Except Fault (Outline Element)}
    (rank : Snippet → Nat) (ranks : ∀ name x text t, r.find? name = some x →
      x.body = .template text → trees text = .ok t →
        r.RanksBelow rank x (t.map Element.planted).children) :
    r.Acyclic (.planting r trees : Surroundings σ) := by
  refine ⟨rank, fun name x text hfind body w w' tree sound hrun => ?_⟩
  obtain ⟨t, ht, _, hdocument⟩ := Surroundings.exists_of_planting sound hrun
  rw [hdocument]
  exact ranks name x text t hfind body ht

/-- A snippet `x` whose template is a node `y`, and `y`, whose template is a node `b`. -/
def Registry.descending : Registry :=
  ⟨(Keyed.insert ∅ "x" { serial := 1, body := .template "y" }).insert "y"
    { serial := 0, body := .template "b" }⟩

/-- Nothing registered is left of `x>x`, and to resolve it again changes nothing. -/
theorem resolveBelow_leaves_descending :
    ∃ (c : Surroundings (Unit × List Call)) (w : World (Unit × List Call)) (root : NodeId),
      Registry.descending.OfTemplates ∧ (Registry.descending.logging Prod.snd).Describes c ∧
      Registry.descending.Acyclic c ∧ w.store.Sound ∧ (w.store.document root).children =
        [.node { name := some "x" } [.node { name := some "x" } []]] ∧
      ∃ k w' es, (∀ limits : Limits, k ≤ limits.depth → k ≤ limits.steps →
          (resolveBelow (pure c) limits root).run w = (.done (), w')) ∧
        w'.state.2 = w.state.2 ++ es.map Event.call ∧
        Registry.descending.Traces {} (w.store.forest root) es ∧
        Registry.descending.Leaves Prod.snd c w' root es := by
  let trees : String → Except Fault (Outline Element) := fun text =>
    .ok (.node {} [.node { name := some text } []])
  obtain ⟨w, root, sound, _, hdocument⟩ := exists_world
    (.node {} [.node { name := some "x" } [.node { name := some "x" } []]]) ((), ([] : List Call))
  have templates : Registry.descending.OfTemplates :=
    (Registry.ofTemplates_empty.insert "x" 1 "y").insert "y" 0 "b"
  have describes : (Registry.descending.reading Unit).Describes
      (.planting Registry.descending trees) :=
    Surroundings.planting_describes (fun _ => ⟨_, rfl⟩) (fun _ _ => rfl) fun _ _ => trivial
  have acyclic : Registry.descending.Acyclic
      (.planting Registry.descending trees : Surroundings Unit) := by
    refine Registry.acyclic_planting Snippet.serial fun name x text t hfind body ht => ?_
    cases ht
    intro e he y hy
    cases List.mem_singleton.mp he
    have hx : x ∈ [_, _] := Registry.mem_values_of_find? hfind
    rcases List.mem_pair.mp hx with rfl | rfl <;> cases body
    · cases hy
      decide
    · cases hy
  have records := Surroundings.recording_describes templates describes
  exact ⟨_, w, root, templates, records, Registry.acyclic_recording acyclic, sound,
    by rw [hdocument]; rfl, resolveBelow_leaves _ templates Prod.snd _ records w sound root⟩

end SnippetTree
