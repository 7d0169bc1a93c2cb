import SnippetTree.Proofs.Forest
import SnippetTree.Proofs.Reached

namespace SnippetTree

/-- A node with what it shows. -/
structure Cell where
  id : NodeId
  element : Element
  deriving DecidableEq

namespace Cell

def roots (ts : List (Outline Cell)) : List NodeId := ts.map fun t => t.label.id

def ids (ts : List (Outline Cell)) : List NodeId := (Outline.labels ts).map Cell.id

@[simp] theorem roots_nil : roots [] = [] := rfl

@[simp] theorem roots_cons (a : Cell) (cs ts : List (Outline Cell)) :
    roots (.node a cs :: ts) = a.id :: roots ts := rfl

@[simp] theorem roots_append (ts us : List (Outline Cell)) :
    roots (ts ++ us) = roots ts ++ roots us := List.map_append

@[simp] theorem ids_nil : ids [] = [] := rfl

@[simp] theorem ids_cons (a : Cell) (cs ts : List (Outline Cell)) :
    ids (.node a cs :: ts) = a.id :: (ids cs ++ ids ts) := by
  simp [ids]

theorem ids_singleton (a : Cell) (cs : List (Outline Cell)) : ids [.node a cs] = a.id :: ids cs := by
  simp

@[simp] theorem ids_append (ts us : List (Outline Cell)) : ids (ts ++ us) = ids ts ++ ids us := by
  simp [ids, Outline.labels_append]

theorem roots_subset_ids (ts : List (Outline Cell)) : roots ts ⊆ ids ts := by
  induction ts using Outline.forest_induction with
  | nil => simp
  | cons a cs ts _ ih =>
    intro n hn
    rw [roots_cons, List.mem_cons] at hn
    rcases hn with rfl | hn
    · simp
    · simp [ih hn]

end Cell

open Cell

namespace Store

/-- The store shows a forest: each of its cells is a node with that element, and the children of
that node are those that the forest has below it. -/
inductive Shows (s : Store) : List (Outline Cell) → Prop
  | nil : Shows s []
  | cons {a : Cell} {cs ts : List (Outline Cell)} (element : s.element a.id = a.element)
      (children : s.children a.id = roots cs) (below : Shows s cs) (rest : Shows s ts) :
      Shows s (.node a cs :: ts)

variable {s s' : Store} {ts us : List (Outline Cell)} {n m p : NodeId}

theorem Shows.congr (h : s.Shows ts)
    (same : ∀ m ∈ ids ts, s'.element m = s.element m ∧ s'.children m = s.children m) :
    s'.Shows ts := by
  induction h with
  | nil => exact .nil
  | @cons a cs ts element children _ _ ihc iht =>
    obtain ⟨he, hc⟩ := same a.id (by simp)
    exact .cons (he.trans element) (hc.trans children) (ihc fun m hm => same m (by simp [hm]))
      (iht fun m hm => same m (by simp [hm]))

theorem Shows.append (h : s.Shows ts) (h' : s.Shows us) : s.Shows (ts ++ us) := by
  induction h with
  | nil => exact h'
  | cons element children below _ _ ih => exact .cons element children below ih

theorem Shows.of_append (h : s.Shows (ts ++ us)) : s.Shows ts ∧ s.Shows us := by
  induction ts with
  | nil => exact ⟨.nil, h⟩
  | cons t ts ih =>
    cases h with
    | cons element children below rest =>
      obtain ⟨ht, hu⟩ := ih rest
      exact ⟨.cons element children below ht, hu⟩

theorem WellLinked.above_iff (linked : s.WellLinked) :
    s.Above n m ↔ ∃ r ∈ s.children n, m = r ∨ s.Above r m := by
  constructor
  · intro h
    obtain ⟨r, hr, hm⟩ := Relation.TransGen.head'_iff.mp h
    exact ⟨r, linked.mem_children.mpr hr, Relation.reflTransGen_iff_eq_or_transGen.mp hm⟩
  · rintro ⟨r, hr, rfl | hm⟩
    · exact .single (linked.mem_children.mp hr)
    · exact .head (linked.mem_children.mp hr) hm

theorem Shows.mem_ids_iff (h : s.Shows ts) (linked : s.WellLinked) :
    m ∈ ids ts ↔ ∃ r ∈ roots ts, m = r ∨ s.Above r m := by
  induction h with
  | nil => simp
  | @cons a cs ts element children _ _ ihc iht =>
    rw [← children, ← linked.above_iff] at ihc
    simp only [ids_cons, roots_cons, List.mem_cons, List.mem_append, ihc, iht, exists_eq_or_imp,
      or_assoc]

theorem Shows.mem_ids_iff_above (h : s.Shows ts) (linked : s.WellLinked)
    (children : s.children n = roots ts) : m ∈ ids ts ↔ s.Above n m := by
  rw [h.mem_ids_iff linked, linked.above_iff, children]

theorem Shows.over_iff {a b : NodeId} (h : s.Shows ts) (linked : s.WellLinked) :
    Outline.Over (ts.map (Outline.map Cell.id)) a b ↔ a ∈ ids ts ∧ s.Above a b := by
  induction h with
  | nil => simp [Outline.not_over_nil]
  | @cons c cs ts _ children below _ ihc iht =>
    have hlabels : b ∈ Outline.labels (cs.map (Outline.map Cell.id)) ↔ s.Above c.id b := by
      rw [Outline.labels_map]
      exact below.mem_ids_iff_above linked children
    rw [List.map_cons, Outline.map_node, Outline.over_cons_iff, hlabels, ihc, iht, ids_cons,
      List.mem_cons, List.mem_append, or_and_right, or_and_right]
    constructor
    · rintro (⟨rfl, h⟩ | h)
      · exact Or.inl ⟨rfl, h⟩
      · exact Or.inr h
    · rintro (⟨rfl, h⟩ | h)
      · exact Or.inl ⟨rfl, h⟩
      · exact Or.inr h

theorem Shows.mem_store (h : s.Shows ts) (linked : s.WellLinked) (held : ∀ r ∈ roots ts, r ∈ s)
    (hm : m ∈ ids ts) : m ∈ s := by
  obtain ⟨r, hr, rfl | ha⟩ := (h.mem_ids_iff linked).mp hm
  · exact held m hr
  · exact mem_of_above ha

theorem exists_shows_of_each (ns : List NodeId)
    (each : ∀ n ∈ ns, ∃ cs, roots cs = s.children n ∧ s.Shows cs) :
    ∃ ts, roots ts = ns ∧ s.Shows ts := by
  induction ns with
  | nil => exact ⟨[], rfl, .nil⟩
  | cons n ns ih =>
    obtain ⟨cs, hcs, shown⟩ := each n (by simp)
    obtain ⟨ts, hts, rest⟩ := ih fun m hm => each m (by simp [hm])
    exact ⟨.node ⟨n, s.element n⟩ cs :: ts, by simp [hts], .cons rfl hcs.symm shown rest⟩

/-- Every list of nodes has a shown forest with these nodes on top. -/
theorem WellLinked.exists_shows (linked : s.WellLinked) (ns : List NodeId) :
    ∃ ts, roots ts = ns ∧ s.Shows ts := by
  suffices one : ∀ n, ∃ cs, roots cs = s.children n ∧ s.Shows cs from
    exists_shows_of_each ns fun n _ => one n
  intro n
  induction n using linked.children_induction with
  | step n ih => exact exists_shows_of_each _ ih

theorem above_total {a b : NodeId} (ha : s.Above a m) (hb : s.Above b m) :
    a = b ∨ s.Above a b ∨ s.Above b a := by
  induction ha with
  | single hp =>
    rcases (above_iff_of_parent hp).mp hb with rfl | hb
    · exact Or.inl rfl
    · exact Or.inr (Or.inr hb)
  | tail ha hp ih =>
    rcases (above_iff_of_parent hp).mp hb with rfl | hb
    · exact Or.inr (Or.inl ha)
    · exact ih hb

theorem WellLinked.not_above_sibling (linked : s.WellLinked) {a b : NodeId}
    (ha : (s.links a).parent = some p) (hb : (s.links b).parent = some p) : ¬s.Above a b := by
  intro h
  rcases (above_iff_of_parent hb).mp h with rfl | h
  · exact linked.acyclic a (.single ha)
  · exact linked.acyclic a (h.tail ha)

theorem WellLinked.eq_of_common (linked : s.WellLinked) {a b : NodeId}
    (ha : (s.links a).parent = some p) (hb : (s.links b).parent = some p)
    (hma : m = a ∨ s.Above a m) (hmb : m = b ∨ s.Above b m) : a = b := by
  rcases hma with rfl | hma <;> rcases hmb with rfl | hmb
  · rfl
  · exact absurd hmb (linked.not_above_sibling hb ha)
  · exact absurd hma (linked.not_above_sibling ha hb)
  · rcases above_total hma hmb with he | hab | hba
    · exact he
    · exact absurd hab (linked.not_above_sibling ha hb)
    · exact absurd hba (linked.not_above_sibling hb ha)

/-- The trees below different children of a node share no node, and the node is in none of them. -/
theorem Shows.nodup_ids (h : s.Shows ts) (linked : s.WellLinked) (nodup : (roots ts).Nodup)
    (parent : ∀ r ∈ roots ts, (s.links r).parent = some p) : (ids ts).Nodup ∧ p ∉ ids ts := by
  constructor
  · induction h generalizing p with
    | nil => exact .nil
    | @cons a cs ts element children below rest ihc iht =>
      rw [roots_cons] at nodup
      obtain ⟨hne, hnd⟩ := List.nodup_cons.mp nodup
      have hcs : ∀ r ∈ roots cs, (s.links r).parent = some a.id := fun r hr =>
        linked.mem_children.mp (children ▸ hr)
      have habove : ∀ m ∈ ids cs, s.Above a.id m := fun m =>
        (below.mem_ids_iff_above linked children).mp
      have hrest : ∀ m ∈ ids ts, m = a.id ∨ s.Above a.id m → False := by
        intro m hm ha
        obtain ⟨r, hr, hrm⟩ := (rest.mem_ids_iff linked).mp hm
        have he := linked.eq_of_common (parent a.id (by simp)) (parent r (by simp [hr])) ha hrm
        exact hne (by rw [he]; exact hr)
      rw [ids_cons]
      refine List.nodup_cons.mpr ⟨fun hm => ?_, List.nodup_append.mpr
        ⟨ihc (children ▸ (linked.siblings a.id).nodup) hcs,
          iht hnd fun r hr => parent r (by simp [hr]), fun m hm k hk he => ?_⟩⟩
      · rcases List.mem_append.mp hm with hm | hm
        · exact linked.acyclic _ (habove _ hm)
        · exact hrest _ hm (Or.inl rfl)
      · exact hrest k hk (Or.inr (habove k (he ▸ hm)))
  · intro hp
    obtain ⟨r, hr, rfl | ha⟩ := (h.mem_ids_iff linked).mp hp
    · exact linked.acyclic p (.single (parent p hr))
    · exact linked.acyclic p (.head (parent r hr) ha)

theorem Shows.length_ids_le (h : s.Shows ts) (linked : s.WellLinked)
    (children : s.children n = roots ts) : (ids ts).length ≤ s.nodes.size := by
  have parent : ∀ r ∈ roots ts, (s.links r).parent = some n := fun r hr =>
    linked.mem_children.mp (children ▸ hr)
  refine length_le_size
    (h.nodup_ids linked (children ▸ (linked.siblings n).nodup) parent).1 fun m hm => ?_
  exact h.mem_store linked (fun r hr => mem_of_parent (parent r hr)) hm

theorem length_ids_lt_of_mem {b : Cell} {ds : List (Outline Cell)} (hb : .node b ds ∈ ts) :
    (ids ds).length < (ids ts).length := by
  obtain ⟨before, after, rfl⟩ := List.append_of_mem hb
  simp only [ids_append, ids_cons, List.length_append, List.length_cons]
  omega

theorem Shows.of_mem {b : Cell} {ds : List (Outline Cell)} (h : s.Shows ts)
    (hb : .node b ds ∈ ts) :
    s.element b.id = b.element ∧ s.children b.id = roots ds ∧ s.Shows ds := by
  obtain ⟨before, after, rfl⟩ := List.append_of_mem hb
  cases h.of_append.2 with
  | cons element children below _ => exact ⟨element, children, below⟩

theorem Shows.outlineTo_eq {bound : Nat} (h : s.Shows ts) (children : s.children n = roots ts)
    (room : (ids ts).length ≤ bound) :
    s.outlineTo bound n = .node n (ts.map (Outline.map Cell.id)) := by
  induction bound generalizing n ts with
  | zero =>
    cases ts with
    | nil => rfl
    | cons t ts =>
      cases t
      simp at room
  | succ bound ih =>
    have hts : ∀ t ∈ ts, s.outlineTo bound t.label.id = t.map Cell.id := by
      rintro ⟨b, ds⟩ hb
      obtain ⟨_, childrenb, below⟩ := h.of_mem hb
      have hlt := length_ids_lt_of_mem hb
      rw [Outline.map_node]
      exact ih below childrenb (by omega)
    rw [outlineTo, children, roots, List.map_map]
    exact congrArg _ (List.map_congr_left hts)

theorem Shows.outline_eq (h : s.Shows ts) (linked : s.WellLinked)
    (children : s.children n = roots ts) : s.outline n = .node n (ts.map (Outline.map Cell.id)) :=
  h.outlineTo_eq children (h.length_ids_le linked children)

theorem Shows.element_eq {a : Cell} (h : s.Shows ts) (ha : a ∈ Outline.labels ts) :
    s.element a.id = a.element := by
  induction h with
  | nil => simp at ha
  | @cons b cs ts element _ _ _ ihc iht =>
    rw [Outline.labels_cons, List.mem_cons, List.mem_append] at ha
    rcases ha with rfl | ha | ha
    · exact element
    · exact ihc ha
    · exact iht ha

theorem Shows.map_cell (h : s.Shows ts) :
    (ts.map (Outline.map Cell.id)).map (Outline.map fun m => ⟨m, s.element m⟩) = ts := by
  induction h with
  | nil => rfl
  | @cons a cs ts element _ _ _ ihc iht =>
    simp only [List.map_cons, Outline.map_node, element]
    rw [ihc, iht]

theorem Shows.map_element (h : s.Shows ts) :
    (ts.map (Outline.map Cell.id)).map (Outline.map s.element) =
      ts.map (Outline.map Cell.element) := by
  have hmap := congrArg (List.map (Outline.map Cell.element)) h.map_cell
  rwa [Outline.map_map_forest] at hmap

def cells (s : Store) (n : NodeId) : Outline Cell := (s.outline n).map fun m => ⟨m, s.element m⟩

theorem Shows.cells_eq (h : s.Shows ts) (linked : s.WellLinked)
    (children : s.children n = roots ts) : s.cells n = .node ⟨n, s.element n⟩ ts := by
  rw [cells, h.outline_eq linked children, Outline.map_node, h.map_cell]

def forest (s : Store) (n : NodeId) : List (Outline Cell) :=
  ((s.outline n).map fun m => ⟨m, s.element m⟩).children

theorem Shows.forest_eq (h : s.Shows ts) (linked : s.WellLinked)
    (children : s.children n = roots ts) : s.forest n = ts := by
  rw [forest, h.outline_eq linked children, Outline.map_node]
  exact h.map_cell

theorem WellLinked.shows_forest (linked : s.WellLinked) : s.Shows (s.forest n) := by
  obtain ⟨ts, hts, shown⟩ := linked.exists_shows (s.children n)
  rwa [shown.forest_eq linked hts.symm]

theorem WellLinked.children_eq_forest (linked : s.WellLinked) :
    s.children n = roots (s.forest n) := by
  obtain ⟨ts, hts, shown⟩ := linked.exists_shows (s.children n)
  rw [shown.forest_eq linked hts.symm, hts]

theorem WellLinked.mem_forest_iff (linked : s.WellLinked) : m ∈ ids (s.forest n) ↔ s.Above n m :=
  linked.shows_forest.mem_ids_iff_above linked linked.children_eq_forest

theorem WellLinked.exists_cell (linked : s.WellLinked) (h : s.Above n m) :
    ∃ a ∈ Outline.labels (s.forest n), a.id = m ∧ a.element = s.element m := by
  obtain ⟨a, ha, rfl⟩ := List.mem_map.mp (linked.mem_forest_iff.mpr h)
  exact ⟨a, ha, rfl, (linked.shows_forest.element_eq ha).symm⟩

theorem Shows.document_eq (h : s.Shows ts) (linked : s.WellLinked)
    (children : s.children n = roots ts) :
    s.document n = .node (s.element n) (ts.map (Outline.map Cell.element)) := by
  rw [document, h.outline_eq linked children, Outline.map_node, h.map_element]

theorem WellLinked.map_element_cells (linked : s.WellLinked) :
    (s.cells n).map Cell.element = s.document n := by
  have shown : s.Shows (s.forest n) := linked.shows_forest
  rw [shown.cells_eq linked linked.children_eq_forest, Outline.map_node,
    shown.document_eq linked linked.children_eq_forest]

theorem WellLinked.label_document (linked : s.WellLinked) :
    (s.document n).label = s.element n := by
  rw [linked.shows_forest.document_eq linked linked.children_eq_forest, Outline.label_node]

theorem WellLinked.children_document (linked : s.WellLinked) :
    (s.document n).children = (s.forest n).map (Outline.map Cell.element) := by
  rw [linked.shows_forest.document_eq linked linked.children_eq_forest, Outline.children]

theorem Shows.getLast?_eq_lastLeafWithin {bound : Nat} (h : s.Shows ts) (linked : s.WellLinked)
    (children : s.children n = roots ts) (room : (ids ts).length ≤ bound) :
    (n :: ids ts).getLast? = some (s.lastLeafWithin bound n) := by
  induction bound generalizing n ts with
  | zero =>
    have hts : ids ts = [] := List.length_eq_zero_iff.mp (Nat.le_zero.mp room)
    simp [hts, lastLeafWithin]
  | succ bound ih =>
    have hlast := (linked.siblings n).last
    rw [children] at hlast
    rcases List.eq_nil_or_concat' ts with rfl | ⟨us, t, rfl⟩
    · simp [lastLeafWithin, hlast]
    · obtain ⟨b, ds⟩ := t
      obtain ⟨_, ht⟩ := h.of_append
      cases ht with
      | cons element childrenb below rest =>
        simp only [ids_append, ids_cons, ids_nil, List.append_nil, List.length_append,
          List.length_cons] at room
        have hb : (s.links n).lastChild = some b.id := by simpa [roots] using hlast
        have hrec := ih below childrenb (by omega)
        simp only [lastLeafWithin, hb, ← hrec]
        rw [ids_append, ids_cons, ids_nil, List.append_nil, ← List.cons_append,
          List.getLast?_append_cons]

theorem Shows.getLast?_eq_lastLeaf (h : s.Shows ts) (linked : s.WellLinked)
    (children : s.children n = roots ts) : (n :: ids ts).getLast? = some (s.lastLeaf n) :=
  h.getLast?_eq_lastLeafWithin linked children (h.length_ids_le linked children)

end Store

end SnippetTree
