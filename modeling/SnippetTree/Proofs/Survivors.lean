import SnippetTree.Proofs.Planting
import SnippetTree.Proofs.Resolving

namespace SnippetTree

open Cell

variable {σ : Type}

namespace Registry

variable {r : Registry} {g : Guard} {e : Element} {s : Snippet}

def OfTemplates (r : Registry) : Prop :=
  ∀ name s, r.find? name = some s → ∃ text, s.body = .template text

def matched (r : Registry) (e : Element) : Bool := (e.name.bind r.find?).isSome

theorem OfTemplates.body (h : r.OfTemplates) (due : r.due? g e = some s) :
    ∃ text, s.body = .template text := by
  obtain ⟨name, _, hfind, _⟩ := due?_eq_some_iff.mp due
  exact h name s hfind

theorem OfTemplates.not_handler {h : HandlerId} (ht : r.OfTemplates) (due : r.due? g e = some s) :
    s.body ≠ .handler h := by
  obtain ⟨text, body⟩ := ht.body due
  simp [body]

theorem ofTemplates_empty : OfTemplates ∅ := by
  intro name s h
  cases h

theorem OfTemplates.insert (h : r.OfTemplates) (name : String) (serial : Nat) (text : String) :
    OfTemplates ⟨r.snippets.insert name { serial, body := .template text }⟩ := by
  intro other s hs
  rw [find?, Keyed.find?_insert] at hs
  split at hs
  next => exact ⟨text, (Option.some.inj hs) ▸ rfl⟩
  next => exact h other s hs

theorem isNone_due?_empty (r : Registry) (e : Element) :
    (r.due? {} e).isNone = !r.matched e := by
  cases h : e.name.bind r.find? with
  | none => simp [due?, matched, h]
  | some s =>
    have hinactive : Guard.contains {} s = false := rfl
    simp [due?, matched, h, hinactive]

theorem due?_of_matched (h : r.matched e = true) : ∃ s, r.due? {} e = some s := by
  rw [← Option.isSome_iff_exists, ← Option.not_isNone, isNone_due?_empty, h]
  rfl

theorem due?_of_none (h : e.name.bind r.find? = none) : r.due? g e = none := by
  rw [due?, h, Option.filter_none]

theorem due?_of_unmatched (h : r.matched e = false) : r.due? g e = none := by
  rw [matched, Option.isSome_eq_false_iff, Option.isNone_iff_eq_none] at h
  exact due?_of_none h

/-- Surroundings that look names up in the registry, and read every template to some tree. -/
def reading (r : Registry) (σ : Type) : Rules σ where
  registry := r
  reads := fun _ x => ∃ t, x = .ok t
  rewrite := fun _ e => e
  fresh := fun _ => True
  changes := fun _ _ _ => True

end Registry

theorem map_id_giveAll (e : Element) (ts : List (Outline Cell)) :
    (giveAll e ts).map (Outline.map Cell.id) = ts.map (Outline.map Cell.id) := by
  induction ts with
  | nil => rfl
  | cons t ts ih =>
    obtain ⟨a, cs⟩ := t
    rw [giveAll_cons, List.map_cons, ih]
    simp [give]

namespace Rules

variable {ρ : Rules σ} {g : Guard} {ts ts' : List (Outline Cell)} {es : List Event}

/-- Contracting a resolved forest to its old nodes gives the forest as it was, contracted to the old
nodes that had no snippet due. -/
theorem contract_of_settles (old : NodeId → Bool) (templates : ρ.registry.OfTemplates)
    (new : ∀ n, ρ.fresh n → old n = false) (h : ρ.Settles g ts es ts') :
    Outline.contract old (ts'.map (Outline.map Cell.id)) =
      (Outline.contract (fun a => old a.id && (ρ.registry.due? g a.element).isNone) ts).map
        (Outline.map Cell.id) := by
  induction h with
  | nil => rfl
  | @keep g a cs cs' ts ts' _ _ due _ _ ihc iht =>
    rw [List.map_cons, Outline.map_node]
    by_cases hold : old a.id = true
    · have hkeep : (old a.id && (ρ.registry.due? g a.element).isNone) = true := by simp [hold, due]
      rw [Outline.contract_cons_of_pos hold, Outline.contract, Outline.contractTree, if_pos hkeep,
        ihc, iht, List.singleton_append, List.map_cons, Outline.map_node]
    · have hkeep : ¬(old a.id && (ρ.registry.due? g a.element).isNone) = true := by simp [hold]
      rw [Outline.contract_cons_of_neg hold, Outline.contract, Outline.contractTree, if_neg hkeep,
        ihc, iht, List.map_append]
  | handle due body _ _ _ _ => exact absurd body (templates.not_handler due)
  | @replace g a cs cs' ts ts' us us' _ _ _ s text top due _ _ fresh _ _ _ ihu ihc iht =>
    have hkeep : ¬(old a.id && (ρ.registry.due? g a.element).isNone) = true := by simp [due]
    -- nothing of the template is old, before its resolution and so after it
    have hnone : ∀ b ∈ Outline.labels us, ¬(old b.id &&
        (ρ.registry.due? (g.insert s) b.element).isNone) = true := by
      intro b hb
      simp [new b.id (fresh b.id (List.mem_map_of_mem hb))]
    have hus : ∀ n ∈ Outline.labels (us'.map (Outline.map Cell.id)), ¬old n = true := by
      rw [Outline.contract_eq_nil hnone, List.map_nil] at ihu
      have hlabels := congrArg Outline.labels ihu
      rw [Outline.labels_contract, Outline.labels_nil] at hlabels
      exact List.filter_eq_nil_iff.mp hlabels
    rw [List.map_append, map_id_giveAll, Outline.map_graft, Outline.contract_append,
      Outline.contract_graft hus, ihc, iht, Outline.contract, Outline.contractTree, if_neg hkeep,
      List.map_append]

end Rules

namespace Store

variable {r : Registry} {s s' : Store} {root n : NodeId} {ts : List (Outline Cell)}

def below (s : Store) (n : NodeId) : List NodeId := Outline.labels (s.outline n).children

theorem below_eq (h : s.Shows ts) (linked : s.WellLinked) (children : s.children root = roots ts) :
    s.below root = ids ts := by
  rw [below, h.outline_eq linked children]
  exact Outline.labels_map Cell.id ts

theorem mem_below (linked : s.WellLinked) : n ∈ s.below root ↔ s.Above root n := by
  obtain ⟨ts, hts, shown⟩ := linked.exists_shows (s.children root)
  rw [below_eq shown linked hts.symm, shown.mem_ids_iff_above linked hts.symm]

theorem nodup_below (linked : s.WellLinked) : (s.below root).Nodup := by
  obtain ⟨ts, hts, shown⟩ := linked.exists_shows (s.children root)
  rw [below_eq shown linked hts.symm]
  exact (shown.nodup_ids linked (hts ▸ (linked.siblings root).nodup) fun r hr =>
    linked.mem_children.mp (hts ▸ hr)).1

theorem map_element_below (s : Store) (root : NodeId) :
    (s.below root).map s.element = Outline.labels (s.document root).children := by
  rw [below, document]
  cases s.outline root with
  | node n ts =>
    rw [Outline.map_node]
    exact (Outline.labels_map s.element ts).symm

theorem over_outline_iff {a b : NodeId} (linked : s.WellLinked) (ha : s.Above root a) :
    Outline.Over (s.outline root).children a b ↔ s.Above a b := by
  obtain ⟨ts, hts, shown⟩ := linked.exists_shows (s.children root)
  rw [shown.outline_eq linked hts.symm]
  refine (shown.over_iff linked).trans (and_iff_right ?_)
  exact (shown.mem_ids_iff_above linked hts.symm).mpr ha

/-- From `s` to `s'`, the nodes below `root` whose names are registered went out of the tree. All
others stayed in it, in the same order, and above those that they were above. Nothing else that is
in the tree was there before. -/
structure Keeps (r : Registry) (s s' : Store) (root : NodeId) : Prop where
  gone : ∀ n, s.Above root n → r.matched (s.element n) = true → ¬s'.Above root n
  kept : ∀ n, s.Above root n → r.matched (s.element n) = false → s'.Above root n
  once : (s'.below root).Nodup
  order : (s'.below root).filter (· ∈ s) = (s.below root).filter fun n => !r.matched (s.element n)
  nested : ∀ a b, s.Above root a → s.Above root b → r.matched (s.element a) = false →
    r.matched (s.element b) = false → (s'.Above a b ↔ s.Above a b)
  contracted : Outline.contract (· ∈ s) (s'.outline root).children =
    Outline.contract (fun n => !r.matched (s.element n)) (s.outline root).children

theorem keeps_of_contracted (linked : s.WellLinked) (linked' : s'.WellLinked)
    (contracted : Outline.contract (· ∈ s) (s'.outline root).children =
      Outline.contract (fun n => !r.matched (s.element n)) (s.outline root).children) :
    s.Keeps r s' root := by
  have order : (s'.below root).filter (· ∈ s) =
      (s.below root).filter fun n => !r.matched (s.element n) := by
    rw [below, below, ← Outline.labels_contract, ← Outline.labels_contract, contracted]
  have hmem : ∀ n, s'.Above root n ∧ n ∈ s ↔ s.Above root n ∧ r.matched (s.element n) = false := by
    intro n
    have hn : n ∈ (s'.below root).filter (· ∈ s) ↔
        n ∈ (s.below root).filter fun n => !r.matched (s.element n) := by rw [order]
    simpa [List.mem_filter, mem_below linked, mem_below linked'] using hn
  have kept : ∀ n, s.Above root n → r.matched (s.element n) = false → s'.Above root n :=
    fun n hn hm => ((hmem n).mpr ⟨hn, hm⟩).1
  refine ⟨fun n hn hm hn' => ?_, kept, nodup_below linked', order, fun a b ha hb hma hmb => ?_,
    contracted⟩
  · have hout := ((hmem n).mp ⟨hn', mem_of_above hn⟩).2
    cases hm.symm.trans hout
  · rw [← over_outline_iff linked' (kept a ha hma), ← over_outline_iff linked ha]
    let old : NodeId → Bool := fun m => decide (m ∈ s)
    let stays : NodeId → Bool := fun m => !r.matched (s.element m)
    have hold : ∀ m, s.Above root m → old m = true := fun m hm => decide_eq_true (mem_of_above hm)
    have hstays : ∀ m, r.matched (s.element m) = false → stays m = true := fun m hm => by
      rw [show stays m = !r.matched (s.element m) from rfl, hm, Bool.not_false]
    have hforest : Outline.contract old (s'.outline root).children =
        Outline.contract stays (s.outline root).children := contracted
    rw [← Outline.over_contract_iff (hold a ha) (hold b hb), hforest]
    exact Outline.over_contract_iff (hstays a hma) (hstays b hmb)

end Store

theorem contracted_of_reaches {ρ : Rules σ} {w w' : World σ} {root : NodeId}
    {ts ts' : List (Outline Cell)} {es : List Event} (templates : ρ.registry.OfTemplates)
    (new : ∀ n, ρ.fresh n → n ∉ w.store) (linked : w.store.WellLinked)
    (linked' : w'.store.WellLinked) (shown : w.store.Shows ts)
    (children : w.store.children root = roots ts) (shown' : w'.store.Shows ts')
    (children' : w'.store.children root = roots ts') (settles : ρ.Settles {} ts es ts') :
    Outline.contract (· ∈ w.store) (w'.store.outline root).children =
      Outline.contract (fun n => !ρ.registry.matched (w.store.element n))
        (w.store.outline root).children := by
  have hcontract := Rules.contract_of_settles (fun n => decide (n ∈ w.store)) templates
    (fun n hn => decide_eq_false (new n hn)) settles
  rw [shown'.outline_eq linked' children', shown.outline_eq linked children, Outline.children,
    Outline.children, hcontract, Outline.contract_map]
  refine congrArg _ (Outline.contract_congr fun a ha => ?_)
  have hheld : a.id ∈ w.store := Store.mem_of_above
    ((shown.mem_ids_iff_above linked children).mp (List.mem_map_of_mem ha))
  rw [Registry.isNone_due?_empty, shown.element_eq ha, decide_eq_true hheld, Bool.true_and]

/-- Where all snippets are templates, the resolution of a tree succeeds, given enough room, and
keeps all nodes without a snippet. -/
theorem resolveBelow_keeps (r : Registry) (templates : r.OfTemplates) (c : Surroundings σ)
    (describes : (r.reading σ).Describes c) (w : World σ) (sound : w.store.Sound) (root : NodeId) :
    ∃ k w', (∀ limits : Limits, k ≤ limits.depth → k ≤ limits.steps →
        (resolveBelow (pure c) limits root).run w = (.done (), w')) ∧
      w.store.Keeps r w'.store root := by
  let ρ : Rules σ := { r.reading σ with fresh := fun n => n ∉ w.store }
  have describes' : ρ.Describes c := ⟨describes.lookup, describes.parse, describes.handle⟩
  obtain ⟨ts, hts, shown⟩ := sound.linked.exists_shows (w.store.children root)
  obtain ⟨out, w', ts', ⟨k, hk⟩, sound', reached⟩ :=
    Rules.resolveBelow_reaches describes' ⟨sound, fun _ hn => hn⟩ shown hts.symm
  cases reached.yields with
  | done settles _ =>
    refine ⟨k, w', hk, Store.keeps_of_contracted sound.linked sound'.linked ?_⟩
    exact contracted_of_reaches templates (fun _ hn => hn) sound.linked sound'.linked shown hts.symm
      reached.shown (by simpa using reached.children) settles
  | failed stops =>
    refine absurd stops (Rules.not_stops_of_reads fun text e h => ?_)
    obtain ⟨t, ht⟩ := h
    cases ht

/-- A snippet `x` whose template mentions it, and a snippet `y` whose template is empty. -/
def Registry.vanishing : Registry :=
  ⟨(Keyed.insert ∅ "x" { serial := 0, body := .template "a>x" }).insert "y"
    { serial := 1, body := .template "" }⟩

/-- From `x>b+(y>c)+d`, the nodes `b`, `c` and `d` are kept. -/
theorem resolveBelow_keeps_vanishing :
    ∃ (c : Surroundings Unit) (w : World Unit) (root : NodeId), Registry.vanishing.OfTemplates ∧
      (Registry.vanishing.reading Unit).Describes c ∧ w.store.Sound ∧
      (w.store.document root).children = [.node { name := some "x" } [.node { name := some "b" } [],
        .node { name := some "y" } [.node { name := some "c" } []], .node { name := some "d" } []]] ∧
      ∃ k w', (∀ limits : Limits, k ≤ limits.depth → k ≤ limits.steps →
          (resolveBelow (pure c) limits root).run w = (.done (), w')) ∧
        w.store.Keeps Registry.vanishing w'.store root := by
  let trees : String → Outline Element := fun text =>
    if text = "a>x" then .node {} [.node { name := some "a" } [.node { name := some "x" } []]]
    else .node {} []
  obtain ⟨w, root, sound, _, hdocument⟩ := exists_world (.node {} [.node { name := some "x" }
    [.node { name := some "b" } [], .node { name := some "y" } [.node { name := some "c" } []],
      .node { name := some "d" } []]]) ()
  have templates : Registry.vanishing.OfTemplates :=
    (Registry.ofTemplates_empty.insert "x" 0 "a>x").insert "y" 1 ""
  have describes : (Registry.vanishing.reading Unit).Describes
      (.planting Registry.vanishing fun text => .ok (trees text)) :=
    Surroundings.planting_describes (fun text => ⟨_, rfl⟩) (fun _ _ => rfl) fun _ _ => trivial
  obtain ⟨k, w', hrun, hkeeps⟩ :=
    resolveBelow_keeps Registry.vanishing templates _ describes w sound root
  exact ⟨_, w, root, templates, describes, sound, by rw [hdocument]; rfl, k, w', hrun, hkeeps⟩

end SnippetTree
