import SnippetTree.Proofs.Covering
import SnippetTree.Proofs.Terminating
import SnippetTree.Proofs.Traced

namespace SnippetTree

open Cell Script

variable {σ : Type}

namespace Store

variable {s s' : Store} {ns ms : List NodeId}

def tree (s : Store) (n : NodeId) : List NodeId := n :: s.below n

theorem Unshared.append_new (unshared : s.Unshared ns) (held : ∀ n ∈ ns, n ∈ s)
    (preserves : s.Preserves s') (grounded : s.Grounded) (unshared' : s'.Unshared ms)
    (new : ∀ m ∈ ms, ∀ x ∈ s'.records m, ¬s.Holds x) : s'.Unshared (ns ++ ms) := by
  have old : ∀ n ∈ ns, s'.records n = s.records n := fun n hn =>
    records_congr (preserves.data n (held n hn))
  intro n hn m hm hne x hx hx'
  rcases List.mem_append.mp hn with hn | hn <;> rcases List.mem_append.mp hm with hm | hm
  · rw [old n hn] at hx
    rw [old m hm] at hx'
    exact unshared n hn m hm hne x hx hx'
  · rw [old n hn] at hx
    exact new m hm x hx' (grounded.holds hx)
  · rw [old m hm] at hx'
    exact new n hn x hx (grounded.holds hx')
  · exact unshared' n hn m hm hne x hx hx'

theorem Rests.data (h : s.Rests s') (m : NodeId) : s'.data m = s.data m :=
  congrArg Node.data (h.node m)

end Store

/-- Surroundings that look names up in a registry, may fail to read a template, and keep a list of the
nodes of all trees that they read. -/
def Registry.bearing (r : Registry) (born : σ → List NodeId) : Rules σ :=
  { r.attempting σ with changes := fun call a b => born b = born a ++ ids call.tree?.toList }

theorem Rules.Describes.bearing {r : Registry} {c : Surroundings (σ × List Call)}
    (h : (r.attempting σ).recorded.Describes c) :
    (r.bearing fun state => ids (state.2.filterMap Call.tree?)).Describes c := by
  have changes : ∀ {call : Call} {a b : σ × List Call}, b.2 = a.2 ++ [call] →
      ids (b.2.filterMap Call.tree?) = ids (a.2.filterMap Call.tree?) ++ ids call.tree?.toList := by
    intro call a b hb
    rw [hb, List.filterMap_append, ids_append]
    cases ht : call.tree? <;> simp [ht]
  refine ⟨fun name w => ?_, fun name s text hfind body w sound => ?_, fun name s h' hfind body => ?_⟩
  · obtain ⟨state, hstate, hrun⟩ := h.lookup name w
    exact ⟨state, changes hstate, hrun⟩
  · rcases h.parse name s text hfind body w sound with
      ⟨tree, w', hrun, hext, hnew, held, hread, hstate⟩ | failed
    · exact Or.inl ⟨tree, w', hrun, hext, hnew, held, hread, changes hstate⟩
    · exact Or.inr failed
  · intro w n sound hn
    obtain ⟨w', hrun, redrawn, hstate⟩ := h.handle name s h' hfind body w n sound hn
    exact ⟨w', hrun, redrawn, changes hstate⟩

/-- Reading a template changes nothing that is there. It gives a tree with new records that its nodes
do not share, or it fails. -/
structure Surroundings.Issues (c : Surroundings σ) (born : σ → List NodeId) : Prop where
  read : ∀ text (w : World σ) tree w', w.store.Sound → (c.parse text).run w = (.done tree, w') →
    w.store.Preserves w'.store ∧ w'.store.Unshared (w'.store.tree tree) ∧
      ∀ m ∈ w'.store.tree tree, ∀ x ∈ w'.store.records m, ¬w.store.Holds x
  failed : ∀ text (w : World σ) e w', w.store.Sound → (c.parse text).run w = (.failed e, w') →
    w.store.Preserves w'.store ∧ born w'.state = born w.state

namespace Surroundings.Issues

variable {c : Surroundings σ} {r : Registry}

theorem planting (trees : String → Except Fault (Outline Element)) (born : σ → List NodeId) :
    Surroundings.Issues (.planting r trees) born where
  read := by
    intro text w tree w' sound hrun
    obtain ⟨t, _, hplant, _⟩ := Surroundings.exists_of_planting sound hrun
    obtain ⟨sound', adds⟩ := leads_plant t w tree w' ⟨sound, .refl _⟩ hplant
    obtain ⟨n, s', hplant', hext, hn, _⟩ := Store.run_plant sound t
    cases hplant'.symm.trans hplant
    have fresh : ∀ m ∈ s'.tree tree, m ∉ w.store := by
      intro m hm hw
      rw [Store.tree, List.mem_cons, Store.mem_below sound'.linked] at hm
      rcases hm with rfl | hm
      · exact hn hw
      · exact hn (hext.mem_of_above sound.linked hm hw)
    exact ⟨adds.preserves, adds.severs.unshared_of_new fresh, fun m hm =>
      adds.new m (fresh m hm)⟩
  failed := by
    intro text w e w' sound hrun
    cases ht : trees text with
    | error e =>
      simp only [Surroundings.planting, ht] at hrun
      cases hrun
      exact ⟨.refl _, rfl⟩
    | ok t =>
      simp only [Surroundings.planting, ht] at hrun
      obtain ⟨n, s', hplant, _⟩ := Store.run_plant sound t
      rw [hplant] at hrun
      cases hrun

theorem recording {born : σ → List NodeId} (h : c.Issues born) :
    c.recording.Issues fun state => ids (state.2.filterMap Call.tree?) where
  read := by
    rintro text ⟨s, a, calls⟩ tree w' sound hrun
    obtain ⟨v, hparse, hstore⟩ := exists_of_recording hrun
    rw [hstore]
    exact h.read text ⟨s, a⟩ tree v sound hparse
  failed := by
    rintro text ⟨s, a, calls⟩ e w' sound hrun
    have hfirst := run_onFirst (c.parse text) ⟨s, a⟩ calls
    rcases hp : (c.parse text).run ⟨s, a⟩ with ⟨out, w₂⟩
    rw [hp] at hfirst
    cases out with
    | done tree =>
      have hrun := (run_bind_of_done hfirst).symm.trans hrun
      cases hrun
    | failed fault =>
      have hrun := (run_bind_of_failed hfirst).symm.trans hrun
      cases hrun
      exact ⟨(h.failed text ⟨s, a⟩ e w₂ sound hp).1, rfl⟩
    | exhausted =>
      change (Script.bind _ _).run _ = _ at hrun
      rw [run_bind, hfirst] at hrun
      cases hrun

end Surroundings.Issues

/-- Between the worlds, the nodes `new` came with trees that were read. Where nodes of the first one
share no record, they do not share any with one another or with the new ones in the second one. -/
structure Bears (born : σ → List NodeId) (w w' : World σ) (new : List NodeId) : Prop where
  born : born w'.state = born w.state ++ new
  held : ∀ m ∈ w.store, m ∈ w'.store
  made : ∀ m ∈ new, m ∈ w'.store
  unshared : ∀ ns, (∀ n ∈ ns, n ∈ w.store) → w.store.Unshared ns → w'.store.Unshared (ns ++ new)

namespace Bears

variable {born : σ → List NodeId} {w w₁ w₂ w' : World σ} {new new' : List NodeId}

theorem trans (h : Bears born w w₁ new) (h' : Bears born w₁ w' new') :
    Bears born w w' (new ++ new') where
  born := by rw [h'.born, h.born, List.append_assoc]
  held := fun m hm => h'.held m (h.held m hm)
  made := by
    intro m hm
    exact (List.mem_append.mp hm).elim (fun hm => h'.held m (h.made m hm)) (h'.made m)
  unshared := by
    intro ns hns start
    have all : ∀ m ∈ ns ++ new, m ∈ w₁.store := fun m hm =>
      (List.mem_append.mp hm).elim (fun hm => h.held m (hns m hm)) (h.made m)
    rw [← List.append_assoc]
    exact h'.unshared _ all (h.unshared ns hns start)

theorem of_severs (state : born w'.state = born w.state) (held : ∀ m ∈ w.store, m ∈ w'.store)
    (severs : w.store.Severs w'.store) : Bears born w w' [] where
  born := by rw [state, List.append_nil]
  held := held
  made := by simp
  unshared := by
    intro ns _ start
    rw [List.append_nil]
    exact severs.unshared start

theorem of_rests (state : born w'.state = born w.state) (rests : w.store.Rests w'.store) :
    Bears born w w' [] :=
  of_severs state (fun _ hm => rests.mem_iff.mpr hm) (.of_data rests.data)

theorem of_preserves (state : born w'.state = born w.state)
    (preserves : w.store.Preserves w'.store) : Bears born w w' [] where
  born := by rw [state, List.append_nil]
  held := preserves.held
  made := by simp
  unshared := by
    intro ns hns start n hn m hm hne x hx hx'
    rw [List.append_nil] at hn hm
    rw [Store.records_congr (preserves.data n (hns n hn))] at hx
    rw [Store.records_congr (preserves.data m (hns m hm))] at hx'
    exact start n hn m hm hne x hx hx'

theorem refl (w : World σ) : Bears born w w [] := .of_severs rfl (fun _ hm => hm) (.refl _)

end Bears

namespace Registry

variable {r : Registry} {born : σ → List NodeId} {c : Surroundings σ} {w w' w₁ w₂ : World σ}
  {es : List Event} {G : Guard} {tree p : NodeId} {us cs : List (Outline Cell)} {a : Cell}
  {x : Snippet} {text : String}

theorem born_eq (h : (r.bearing born).Passes es w w') :
    born w'.state = born w.state ++ ids (es.filterMap Event.tree?) := by
  induction h with
  | nil state => rw [state, List.filterMap_nil, ids_nil, List.append_nil]
  | @cons e es _ _ _ first _ ih =>
    have hfirst : born _ = born _ ++ ids e.tree?.toList := first.state
    rw [ih, hfirst, List.append_assoc, ← ids_append]
    cases he : e.tree? <;> simp [he]

/-- What becomes of a forest: its nodes are those that were in it, and new ones from trees that were
read; no two of them share a record that was not shared before. -/
def bearingAccount (born : σ → List NodeId) : Account σ where
  yields := fun _ ts ts' w w' out => out ≠ .exhausted ∧
    ∃ new, Bears born w w' new ∧ ∀ m ∈ ids ts', m ∈ ids ts ∨ m ∈ new
  fresh := fun _ => True
  admits := fun _ => True
  admits_empty := trivial
  ended := fun h => h.1
  nil := fun _ w => ⟨nofun, [], .refl w, by simp⟩
  append := by
    rintro G p before t us' ts ts' w w₁ w' out _ _ ⟨_, new, bears, nodes⟩ ⟨ended, new', bears', nodes'⟩
    refine ⟨ended, new ++ new', bears.trans bears', fun m hm => ?_⟩
    rw [ids_append, List.mem_append] at hm ⊢
    rw [List.mem_append]
    rcases hm with hm | hm
    · exact (nodes m hm).imp Or.inl Or.inl
    · exact (nodes' m hm).imp Or.inr Or.inr
  append_failed := by
    rintro G us us' w w' fault ⟨ended, new, bears, nodes⟩ ts
    refine ⟨ended, new, bears, fun m hm => ?_⟩
    rw [ids_append, List.mem_append] at hm ⊢
    rcases hm with hm | hm
    · exact (nodes m hm).imp_left Or.inl
    · exact Or.inl (Or.inr hm)
  around := by
    rintro G ts ts' w w₁ w₂ w' out start ⟨ended, new, bears, nodes⟩ finish
    have all := ((Bears.of_rests (congrArg born start.state) start.store).trans bears).trans
      (.of_rests (congrArg born finish.state) finish.store)
    rw [List.nil_append, List.append_nil] at all
    exact ⟨ended, new, all, nodes⟩

theorem bears_of_grown (issues : c.Issues born) (sound : w₁.store.Sound)
    (rests : w.store.Rests w₁.store)
    (parse : Ends (fun _ => c.parse text) w₁ (.done tree, w₂)) (grown : Account.Grown w w₂ tree us)
    (passes : (r.bearing born).Passes (Event.ofCell a ++
      [.parse (G.insert x) text (.node ⟨tree, w₂.store.element tree⟩ us)]) w w₂) :
    Bears born w w₂ (tree :: ids us) where
  born := by
    rw [born_eq passes, List.filterMap_append, Event.filterMap_tree?_ofCell, List.nil_append]
    exact congrArg _ (ids_singleton _ us)
  held := grown.frame.held
  made := grown.mem
  unshared := by
    intro ns hns start
    obtain ⟨k, hrun⟩ := parse
    obtain ⟨preserves, unshared, new⟩ :=
      issues.read text w₁ tree w₂ sound (hrun ⟨k, k⟩ le_rfl le_rfl)
    have htree : w₂.store.tree tree = tree :: ids us :=
      congrArg _ (Store.below_eq grown.shown grown.sound.linked grown.children)
    rw [htree] at unshared new
    have start₁ : w₁.store.Unshared ns :=
      (Store.Severs.of_data rests.data).unshared start
    exact start₁.append_new (fun n hn => rests.mem_iff.mpr (hns n hn)) preserves sound.grounded
      unshared new

theorem bearing_lifts (bears : Bears born w w₁ (tree :: ids us)) :
    (bearingAccount born).Lifts G a cs x tree p us w w₁ where
  admitted := trivial
  template := by
    rintro us' w₂ fault ⟨_, new, bears', _⟩
    exact ⟨nofun, _, bears.trans bears', fun m hm => Or.inl hm⟩
  own := by
    rintro us' cs' w₂ w₃ fault ⟨_, new, bears', _⟩ ⟨_, new', bears'', nodes⟩
    refine ⟨nofun, _, (bears.trans bears').trans bears'', fun m hm => ?_⟩
    rw [ids_singleton, List.mem_cons] at hm ⊢
    rw [List.mem_append]
    rcases hm with rfl | hm
    · exact Or.inl (Or.inl rfl)
    · exact (nodes m hm).imp Or.inr Or.inr
  done := by
    rintro us' cs' w₂ w₃ last w' _ ⟨_, new, bears', nodes'⟩ ⟨_, new', bears'', nodes''⟩ concludes
    have ending : Bears born w₃ w' [] :=
      .of_severs (congrArg born concludes.state) concludes.keeps concludes.supplants.severs
    have all := ((bears.trans bears').trans bears'').trans ending
    rw [List.append_nil] at all
    refine ⟨nofun, _, all, fun m hm => ?_⟩
    rw [ids_giveAll, ids_graft, List.mem_append] at hm
    rw [ids_singleton]
    rcases hm with hm | hm
    · rcases nodes' m hm with hm | hm <;> simp [hm]
    · rcases nodes'' m hm with hm | hm <;> simp [hm]

theorem bearing_covers (issues : c.Issues born) :
    (bearingAccount born).Covers (r.bearing born) fun _ => c where
  keep := by
    rintro G a cs cs' w w₁ w' out _ passes rests ⟨ended, new, bears, nodes⟩
    have state := born_eq passes
    rw [Event.filterMap_tree?_ofCell, ids_nil, List.append_nil] at state
    refine ⟨ended, new, (Bears.of_rests state rests).trans bears, fun m hm => ?_⟩
    rw [ids_singleton, List.mem_cons] at hm ⊢
    rcases hm with rfl | hm
    · exact Or.inl (Or.inl rfl)
    · exact (nodes m hm).imp_left Or.inr
  unread := by
    rintro G a cs x text e w w₁ w₂ _ _ sound passes rests ⟨k, hrun⟩ _
    have state := born_eq passes
    rw [Event.filterMap_tree?_ofCell, ids_nil, List.append_nil] at state
    obtain ⟨preserves, state'⟩ := issues.failed text w₁ e w₂ sound (hrun ⟨k, k⟩ le_rfl le_rfl)
    exact ⟨nofun, _, (Bears.of_rests state rests).trans (.of_preserves state' preserves),
      fun m hm => Or.inl hm⟩
  lifts := by
    intro G a cs x text tree us p before after w w₁ w₂ _ _ _ sound rests parse grown _ passes
    exact bearing_lifts (bears_of_grown issues sound rests parse grown passes)

end Registry

/-- However a resolution ends, no two nodes share a record, of all that were in the tree, whether they
are still in it or not, and all that came with templates. No other nodes are in the tree then. -/
theorem resolveBelow_unshared (r : Registry) (templates : r.OfTemplates) (born : σ → List NodeId)
    (c : Surroundings σ) (describes : (r.bearing born).Describes c) (issues : c.Issues born)
    (w : World σ) (sound : w.store.Sound) (root : NodeId) (held : root ∈ w.store)
    (unshared : w.store.Unshared (w.store.tree root)) :
    ∃ k out w' new, out ≠ .exhausted ∧ (∀ limits : Limits, k ≤ limits.depth → k ≤ limits.steps →
        (resolveBelow (pure c) limits root).run w = (out, w')) ∧
      born w'.state = born w.state ++ new ∧ w'.store.Unshared (w.store.tree root ++ new) ∧
      ∀ m ∈ w'.store.tree root, m ∈ w.store.tree root ++ new := by
  have follows := (Registry.bearing_covers (r := r) issues).follows templates describes.depicts
  have shown : w.store.Shows (w.store.forest root) := sound.linked.shows_forest
  have children := sound.linked.children_eq_forest (n := root)
  obtain ⟨out, w', ts', ⟨k, hk⟩, sound', reached⟩ :=
    follows.resolveBelow_reaches ⟨sound, fun _ _ => trivial⟩ shown children
  obtain ⟨ended, new, bears, nodes⟩ := reached.yields
  have below : w.store.tree root = root :: ids (w.store.forest root) :=
    congrArg _ (Store.below_eq shown sound.linked children)
  have below' : w'.store.tree root = root :: ids ts' :=
    congrArg _ (Store.below_eq reached.shown sound'.linked (by simpa using reached.children))
  have inside : ∀ n ∈ w.store.tree root, n ∈ w.store := by
    intro n hn
    rw [Store.tree, List.mem_cons, Store.mem_below sound.linked] at hn
    rcases hn with rfl | hn
    · exact held
    · exact Store.mem_of_above hn
  refine ⟨k, out, w', new, ended, hk, bears.born, bears.unshared _ inside unshared, fun m hm => ?_⟩
  rw [below', List.mem_cons] at hm
  rw [below, List.cons_append, List.mem_cons, List.mem_append]
  rcases hm with rfl | hm
  · exact Or.inl rfl
  · exact Or.inr (nodes m hm)

/-- A snippet `x` with two nodes at the top of its template, and a snippet `y` whose template cannot
be read. -/
def Registry.branching : Registry :=
  ⟨(Keyed.insert ∅ "x" { serial := 0, body := .template "a[lang]+b" }).insert "y"
    { serial := 1, body := .template "(" }⟩

/-- In `x[id]*+y`, what `x` carries is given to both nodes of its template before `y` fails. -/
theorem resolveBelow_unshared_branching :
    ∃ (c : Surroundings (Unit × List Call)) (w : World (Unit × List Call)) (root : NodeId),
      Registry.branching.OfTemplates ∧
      (Registry.branching.bearing fun state => ids (state.2.filterMap Call.tree?)).Describes c ∧
      c.Issues (fun state => ids (state.2.filterMap Call.tree?)) ∧ w.store.Sound ∧ root ∈ w.store ∧
      w.store.Unshared (w.store.tree root) ∧
      (w.store.document root).children =
        [.node { name := some "x", repetition := some { count := some 2 },
                 attributes := [{ name := "id", value := some "1" }] } [],
          .node { name := some "y" } []] ∧
      ∃ k out w' new, out ≠ .exhausted ∧ (∀ limits : Limits, k ≤ limits.depth → k ≤ limits.steps →
          (resolveBelow (pure c) limits root).run w = (out, w')) ∧
        ids (w'.state.2.filterMap Call.tree?) = ids (w.state.2.filterMap Call.tree?) ++ new ∧
        w'.store.Unshared (w.store.tree root ++ new) ∧
        ∀ m ∈ w'.store.tree root, m ∈ w.store.tree root ++ new := by
  let trees : String → Except Fault (Outline Element) := fun text =>
    if text = "(" then .error (.raised "ValueError" "unclosed")
    else .ok (.node {} [.node { name := some "a", attributes := [{ name := "lang" }] } [],
      .node { name := some "b" } []])
  let input : Outline Element := .node {}
    [.node { name := some "x", repetition := some { count := some 2 },
             attributes := [{ name := "id", value := some "1" }] } [], .node { name := some "y" } []]
  obtain ⟨root, s, hplant, _, _, held, hdocument⟩ := Store.run_plant
    (w := ⟨{}, ((), ([] : List Call))⟩) Store.sound_empty input
  obtain ⟨sound, adds⟩ :=
    leads_plant input _ root _ ⟨Store.sound_empty, .refl _⟩ hplant
  have templates : Registry.branching.OfTemplates :=
    (Registry.ofTemplates_empty.insert "x" 0 "a[lang]+b").insert "y" 1 "("
  have describes : (Registry.branching.attempting Unit).Describes
      (.planting Registry.branching trees) :=
    Surroundings.planting_describes (fun _ => trivial) (fun _ _ => rfl) fun _ _ => trivial
  have recorded := Rules.Describes.recording templates describes
  have bears : (Registry.branching.bearing fun state : Unit × List Call =>
      ids (state.2.filterMap Call.tree?)).Describes
      (Surroundings.planting Registry.branching trees).recording := recorded.bearing
  have issues : (Surroundings.planting Registry.branching trees).recording.Issues
      fun state : Unit × List Call => ids (state.2.filterMap Call.tree?) :=
    .recording (.planting trees fun _ => [])
  have unshared : s.Unshared (s.tree root) :=
    adds.severs.unshared_of_new fun n _ hn => by simp [Store.mem_iff] at hn
  exact ⟨_, ⟨s, ((), [])⟩, root, templates, bears, issues, sound, held, unshared,
    by rw [hdocument]; rfl,
    resolveBelow_unshared _ templates _ _ bears issues _ sound root held unshared⟩

end SnippetTree
