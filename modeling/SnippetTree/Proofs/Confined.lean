import SnippetTree.Proofs.Confining
import SnippetTree.Proofs.Unshared

namespace SnippetTree

open Cell Script

variable {σ : Type}

namespace Rules

/-- A forest is resolved by these rules with all templates read, and the nodes of the first store are
confined. -/
def confining (ρ : Rules σ) : Account σ where
  yields := fun G ts ts' w w' out => out = .done () ∧ ∃ es, ρ.Settles G ts es ts' ∧
    ρ.Passes es w w' ∧ ρ.Confines G ts ts' es w.store w'.store
  fresh := ρ.fresh
  admits := fun _ => True
  admits_empty := trivial
  ended := by
    rintro G ts ts' w w' out ⟨rfl, _⟩
    nofun
  nil := fun _ w => ⟨rfl, [], .nil, .refl w, .nil w.store⟩
  append := by
    rintro G p before t us' ts ts' w w₁ w' out lies lies₁ ⟨_, es, settles, passes, confines⟩
      ⟨rfl, es', settles', passes', confines'⟩
    obtain ⟨shownt, _⟩ := lies.shown.of_append
    have apart := (Account.apart_of_append lies.linked lies.shown lies.children).2
    refine ⟨rfl, es ++ es', settles.append settles', passes.append passes',
      confines.append confines' (fun m hm => (apart m hm).2.1) (fun m q hp hq => ?_)
        fun m q hp hq => ?_⟩
    · exact shownt.closed lies.linked hp hq
    · exact lies₁.shown.of_append.2.closed lies₁.linked hp hq
  append_failed := by
    rintro G us us' w w' fault ⟨hout, _⟩
    cases hout
  around := by
    rintro G ts ts' w w₁ w₂ w' out start ⟨rfl, es, settles, passes, confines⟩ finish
    have passes' := (passes.of_earlier start.state start.held).append
      (.nil finish.state finish.held)
    rw [List.append_nil] at passes'
    exact ⟨rfl, es, settles, passes',
      (confines.of_later start.store.spares).of_earlier finish.store.spares⟩

end Rules

/-- Reading a template leaves the data and the records that are there. -/
def Surroundings.Isolates (c : Surroundings σ) : Prop :=
  ∀ text (w : World σ) tree w', w.store.Sound → (c.parse text).run w = (.done tree, w') →
    w.store.Preserves w'.store

theorem Surroundings.Issues.isolates {c : Surroundings σ} {born : σ → List NodeId}
    (h : c.Issues born) : c.Isolates :=
  fun text w tree w' sound hrun => (h.read text w tree w' sound hrun).1

namespace Rules

variable {ρ : Rules σ} {c : Surroundings σ} {r : Registry} {log : σ → List Call} {G : Guard} {a : Cell}
  {cs us : List (Outline Cell)} {x : Snippet} {text : String} {w w₁ w₂ : World σ} {p tree : NodeId}
  {before after : List NodeId}

theorem Describes.extends_of_run (describes : ρ.Describes c) {name : String}
    (hfind : ρ.registry.find? name = some x) (body : x.body = .template text)
    (sound : w.store.Sound) (hrun : (c.parse text).run w = (.done tree, w₁)) :
    w.store.Extends w₁.store := by
  rcases describes.parse name x text hfind body w sound with
    ⟨tree', w', hrun', extends', _⟩ | ⟨e, w', hrun', _⟩
  · rw [hrun] at hrun'
    cases hrun'
    exact extends'
  · rw [hrun] at hrun'
    cases hrun'

theorem confining_lifts {top : Cell} (spares : w.store.Spares w₂.store)
    (grown : Account.Grown w w₂ tree us) (stands : w.store.Stands a cs p before after)
    (due : (r.logging log).registry.due? G a.element = some x) (body : x.body = .template text)
    (read : (r.logging log).reads text
      (.ok (.node top.element (us.map (Outline.map Cell.element)))))
    (passes : (r.logging log).Passes
      (Event.ofCell a ++ [.parse (G.insert x) text (.node top us)]) w w₂) :
    (r.logging log).confining.Lifts G a cs x tree p us w w₂ where
  admitted := trivial
  template := by
    rintro us' w₃ fault ⟨hout, _⟩
    cases hout
  own := by
    rintro us' cs' w₃ w₄ fault _ ⟨hout, _⟩
    cases hout
  done := by
    rintro us' cs' w₃ w₄ last w' grown' ⟨_, inner, settlesT, passesT, confinesT⟩
      ⟨_, below, settles, passes', confines⟩ concludes
    obtain ⟨name, hname, _⟩ := Registry.due?_eq_some_iff.mp due
    have hsettles := Settles.replace due body read (fun _ _ => trivial) settlesT settles .nil
    have hpasses := ((passes.append passesT).append passes').append
      (.nil concludes.state concludes.keeps)
    rw [List.append_nil] at hpasses
    rw [List.append_nil, List.append_nil] at hsettles
    have spares' := confinesT.spares spares stands.linked fun m hm => grown.fresh m (by simp [hm])
    refine ⟨rfl, _, hsettles, hpasses, (confines.of_later spares').replace due stands
      concludes.supplants concludes.sound.linked
      (sound_of_run concludes.sound concludes.run).linked concludes.template concludes.own
      concludes.empty grown'.fresh (List.mem_of_getLast? concludes.leaf)
      (concludes.eq_nil (grown'.shown.not_mem_ids grown'.sound.linked grown'.children)) ?_⟩
    rintro rfl
    refine ⟨[], name, G.insert x, text, top, us, inner, below, ?_, settlesT⟩
    simp [Event.ofCell, hname]

theorem confining_covers (describes : (r.logging log).Describes c) (isolates : c.Isolates) :
    (r.logging log).confining.Covers (r.logging log) fun _ => c where
  keep := by
    rintro G a cs cs' w w₁ w' out due passes rests ⟨rfl, es, settles, passes', confines⟩
    have hsettles := Settles.keep due settles .nil
    rw [List.append_nil] at hsettles
    exact ⟨rfl, _, hsettles, passes.append passes',
      (confines.of_later rests.spares).keep due (Event.ofCell a)⟩
  unread := fun _ _ _ _ _ _ read => absurd read Registry.reads_ne_error
  lifts := by
    intro G a cs x text tree us p before after w w₁ w₂ due body stands sound rests ⟨k, hrun⟩ grown
      read passes
    obtain ⟨name, _, hfind, _⟩ := Registry.due?_eq_some_iff.mp due
    have hparse := hrun ⟨k, k⟩ le_rfl le_rfl
    have extends' := describes.extends_of_run hfind body sound hparse
    exact confining_lifts
      (rests.spares.trans (extends'.spares sound.linked (isolates text w₁ tree w₂ sound hparse)))
      grown stands due body read passes

end Rules

/-- From `s` to `s'`, with these events, the nodes below `root` whose names are registered went out of
their places with all that they carry. A node that was kept has other data only if it was below one of
them that nothing was put in the place of. All else that was there, and all records, are as they were. -/
structure Rules.Restrains (ρ : Rules σ) (es : List Event) (root : NodeId) (s s' : Store) : Prop where
  replaced : ∀ n, s.Above root n → ρ.registry.matched (s.element n) = true →
    s'.links n = {} ∧ s'.data n = s.data n
  kept : ∀ n, s.Above root n → ρ.registry.matched (s.element n) = false →
    (∀ q, (s.links n).parent = some q → s.Above root q →
      ρ.registry.matched (s.element q) = true → ¬ρ.EmptyAt es q) → s'.data n = s.data n
  outside : ∀ n ∈ s, n ≠ root → ¬s.Above root n → s'.data n = s.data n ∧ s'.links n = s.links n
  top : s'.data root = s.data root
  records : s.Retains s'

theorem Rules.restrains_of_reaches {ρ : Rules σ} {w w' : World σ} {root : NodeId}
    {ts ts' : List (Outline Cell)} {es : List Event} (linked : w.store.WellLinked)
    (linked' : w'.store.WellLinked) (held : root ∈ w.store) (shown : w.store.Shows ts)
    (children : w.store.children root = roots ts)
    (frame : w.store.Frame w'.store (ids ts) (root :: ids ts))
    (confines : ρ.Confines {} ts ts' es w.store w'.store) :
    ρ.Restrains es root w.store w'.store := by
  have below : ∀ m, m ∈ ids ts ↔ w.store.Above root m := fun m =>
    shown.mem_ids_iff_above linked children
  have cell : ∀ {m}, w.store.Above root m →
      ∃ b ∈ Outline.labels ts, b.id = m ∧ b.element = w.store.element m := by
    intro m hm
    obtain ⟨b, hb, rfl⟩ := List.mem_map.mp ((below m).mpr hm)
    exact ⟨b, hb, rfl, (shown.element_eq hb).symm⟩
  have due : ∀ e, ρ.registry.matched e = (ρ.registry.due? {} e).isSome := by
    intro e
    rw [← Bool.not_inj_iff, ← Registry.isNone_due?_empty, Option.not_isSome]
  have closed : ∀ {m q}, (w.store.links m).parent = some q → w.store.Above root q ∨ q = root →
      w.store.Above root m := by
    rintro m q hp (hq | rfl)
    · exact hq.tail hp
    · exact .single hp
  have unmoved : ∀ m ∈ w.store, (∀ q, (w.store.links m).parent = some q → ¬w.store.Above root q) →
      w'.store.data m = w.store.data m := fun m hm out =>
    confines.data m hm fun q hq hv => out q hq ((below q).mp hv.mem)
  refine ⟨fun n hn hmatched => ?_, fun n hn _ stays => ?_, fun n hn hroot hout => ⟨?_, ?_⟩, ?_,
    confines.retains⟩
  · obtain ⟨b, hb, rfl, helement⟩ := cell hn
    rw [due, ← helement] at hmatched
    obtain ⟨parent, childless, data⟩ := confines.gone b hb hmatched (Store.mem_of_above hn)
    exact ⟨linked'.links_eq_empty parent childless, data⟩
  · refine confines.data n (Store.mem_of_above hn) fun q hq hv => ?_
    obtain ⟨b, hb, rfl, hdue⟩ := hv.due
    rw [← due, ← shown.element_eq hb] at hdue
    exact stays b.id hq ((below b.id).mp hv.mem) hdue hv.empty
  · exact unmoved n hn fun q hq hq' => hout (closed hq (Or.inl hq'))
  · have far : ∀ m, m ∈ w.store → m ≠ root → ¬w.store.Above root m →
        w'.store.children m = w.store.children m := fun m hm hne hm' =>
      frame.children m hm (by simp [hne, below, hm'])
    refine linked.links_congr linked' ?_ (far n hn hroot hout) fun q hq => ?_
    · exact confines.parent n hn fun hin => hout ((below n).mp hin)
    · refine far q (linked.parent_mem hq) (fun he => hout (closed hq (Or.inr he))) fun hq' => ?_
      exact hout (closed hq (Or.inl hq'))
  · exact unmoved root held fun q hq hq' => linked.acyclic root (closed hq (Or.inl hq'))

/-- Where all snippets are templates and each is read to a tree of its own, the resolution of all below
a node succeeds, and restrains what was there. -/
theorem resolveBelow_restrains (r : Registry) (templates : r.OfTemplates) (log : σ → List Call)
    (c : Surroundings σ) (describes : (r.logging log).Describes c) (isolates : c.Isolates)
    (w : World σ) (sound : w.store.Sound) (root : NodeId) (held : root ∈ w.store) :
    ∃ k w' es, (∀ limits : Limits, k ≤ limits.depth → k ≤ limits.steps →
        (resolveBelow (pure c) limits root).run w = (.done (), w')) ∧
      log w'.state = log w.state ++ es.map Event.call ∧
      (r.logging log).Settles {} (w.store.forest root) es (w'.store.forest root) ∧
      (r.logging log).Restrains es root w.store w'.store := by
  have follows := (Rules.confining_covers describes isolates).follows templates describes.depicts
  have shown : w.store.Shows (w.store.forest root) := sound.linked.shows_forest
  have children := sound.linked.children_eq_forest (n := root)
  obtain ⟨out, w', ts', ⟨k, hk⟩, sound', reached⟩ :=
    follows.resolveBelow_reaches ⟨sound, fun _ _ => trivial⟩ shown children
  obtain ⟨rfl, es, settles, passes, confines⟩ := reached.yields
  have hforest : w'.store.forest root = ts' :=
    reached.shown.forest_eq sound'.linked (by simpa using reached.children)
  refine ⟨k, w', es, hk, passes.log_eq, hforest ▸ settles, ?_⟩
  exact Rules.restrains_of_reaches sound.linked sound'.linked held shown children reached.frame confines

/-- A snippet `x` whose template is `y`, and a snippet `y` whose template is empty. -/
def Registry.fading : Registry :=
  ⟨(Keyed.insert ∅ "x" { serial := 0, body := .template "y" }).insert "y"
    { serial := 1, body := .template "" }⟩

/-- In `x[id]>(b>c)+(y>d)`, nothing comes in the place of `x` and of `y`, so that `b` and `d` may get
other data. What `c` carries stays as it is. -/
theorem resolveBelow_restrains_fading :
    ∃ (c : Surroundings (Unit × List Call)) (w : World (Unit × List Call)) (root : NodeId),
      Registry.fading.OfTemplates ∧ (Registry.fading.logging Prod.snd).Describes c ∧ c.Isolates ∧
      w.store.Sound ∧ root ∈ w.store ∧
      (w.store.document root).children =
        [.node { name := some "x", attributes := [{ name := "id", value := some "1" }] }
          [.node { name := some "b" } [.node { name := some "c" } []],
            .node { name := some "y" } [.node { name := some "d" } []]]] ∧
      ∃ k w' es, (∀ limits : Limits, k ≤ limits.depth → k ≤ limits.steps →
          (resolveBelow (pure c) limits root).run w = (.done (), w')) ∧
        w'.state.2 = w.state.2 ++ es.map Event.call ∧
        (Registry.fading.logging (σ := Unit × List Call) Prod.snd).Settles {}
          (w.store.forest root) es (w'.store.forest root) ∧
        (Registry.fading.logging (σ := Unit × List Call) Prod.snd).Restrains es root w.store
          w'.store := by
  let trees : String → Outline Element := fun text =>
    if text = "y" then .node {} [.node { name := some "y" } []] else .node {} []
  obtain ⟨w, root, sound, held, hdocument⟩ := exists_world
    (.node {} [.node { name := some "x", attributes := [{ name := "id", value := some "1" }] }
      [.node { name := some "b" } [.node { name := some "c" } []],
        .node { name := some "y" } [.node { name := some "d" } []]]]) ((), ([] : List Call))
  have templates : Registry.fading.OfTemplates :=
    (Registry.ofTemplates_empty.insert "x" 0 "y").insert "y" 1 ""
  have describes : (Registry.fading.reading Unit).Describes
      (.planting Registry.fading fun text => .ok (trees text)) :=
    Surroundings.planting_describes (fun _ => ⟨_, rfl⟩) (fun _ _ => rfl) fun _ _ => trivial
  have records := Surroundings.recording_describes templates describes
  have isolates : (Surroundings.planting (σ := Unit) Registry.fading fun text =>
      .ok (trees text)).recording.Isolates :=
    (Surroundings.Issues.recording (.planting _ fun _ => [])).isolates
  exact ⟨_, w, root, templates, records, isolates, sound, held, by rw [hdocument]; rfl,
    resolveBelow_restrains _ templates Prod.snd _ records isolates w sound root held⟩

end SnippetTree
