import SnippetTree.Proofs.Handing

namespace SnippetTree

namespace Store

variable {s s' : Store} {p q c r : NodeId} {dest : Option NodeId} {before after : List NodeId}

/-- The second store is the first one with `c` moved: all nodes keep their data, only `c` gets
another parent, and only its old and its new one get other children. -/
structure Moves (s s' : Store) (c : NodeId) (dest : Option NodeId) : Prop where
  linked : s'.WellLinked
  relinked : s.Relinked s'
  parent : (s'.links c).parent = dest
  parents : ∀ m, m ≠ c → (s'.links m).parent = (s.links m).parent
  left : ∀ q, (s.links c).parent = some q → dest ≠ some q →
    s'.children q = (s.children q).filter (· ≠ c)
  others : ∀ q, (s.links c).parent ≠ some q → dest ≠ some q → s'.children q = s.children q

theorem WellLinked.erase_children (h : s.WellLinked) :
    (s.children q).erase c = (s.children q).filter (· ≠ c) := by
  rw [(h.siblings q).nodup.erase_eq_filter]
  exact List.filter_congr fun m _ => by simp [bne, Bool.beq_eq_decide_eq]

theorem WellLinked.filter_children (h : s.WellLinked) (hq : (s.links c).parent ≠ some q) :
    (s.children q).filter (· ≠ c) = s.children q := by
  rw [← h.erase_children, List.erase_of_not_mem]
  rwa [h.mem_children]

theorem WellLinked.moves (h : s.WellLinked) (linked : s'.WellLinked) (relinked : s.Relinked s')
    (parents : ∀ m, (s'.links m).parent = if m = c then dest else (s.links m).parent)
    (children : ∀ q, dest ≠ some q → s'.children q = (s.children q).filter (· ≠ c)) :
    s.Moves s' c dest where
  linked := linked
  relinked := relinked
  parent := by rw [parents, if_pos rfl]
  parents := fun m hm => by rw [parents, if_neg hm]
  left := fun q _ hq => children q hq
  others := fun q hc hq => (children q hq).trans (h.filter_children hc)

theorem WellLinked.moves_append (h : s.WellLinked) (hp : p ∈ s) (hc : c ∈ s)
    (ok : s.cycle? p c = none) : s.Moves (s.append p c) c (some p) ∧
      (s.append p c).children p = (s.children p).filter (· ≠ c) ++ [c] := by
  constructor
  · refine h.moves (h.append ok) (.append s p c) (fun m => parent_append_eq hp hc) fun q hq => ?_
    rw [h.children_append hp hc, if_neg (Ne.symm fun he => hq (congrArg some he)), h.erase_children]
  · rw [h.children_append hp hc, if_pos rfl, h.erase_children]

theorem WellLinked.moves_insertBefore (h : s.WellLinked) (hc : c ∈ s)
    (hr : (s.links r).parent = some p) (hcr : c ≠ r) (ok : s.cycle? p c = none) :
    s.Moves (s.insertBefore p c r) c (some p) ∧
      ∃ before after, (s.children p).filter (· ≠ c) = before ++ r :: after ∧
        (s.insertBefore p c r).children p = before ++ c :: r :: after := by
  have hm : r ∈ (s.children p).erase c :=
    (List.mem_erase_of_ne (Ne.symm hcr)).mpr (h.mem_children.mpr hr)
  obtain ⟨before, after, split⟩ := List.append_of_mem hm
  have placed : s.misplaced? p c r = none := by simp [misplaced?, hr, hcr, ok]
  constructor
  · refine h.moves (h.insertBefore placed) (.insertBefore s p c r)
      (fun m => parent_insertBefore (h.parent_mem hr) hc hcr) fun q hq => ?_
    rw [h.children_insertBefore hc hcr split, if_neg (Ne.symm fun he => hq (congrArg some he)),
      h.erase_children]
  · refine ⟨before, after, h.erase_children ▸ split, ?_⟩
    rw [h.children_insertBefore hc hcr split, if_pos rfl]

theorem WellLinked.moves_detach (h : s.WellLinked) : s.Moves (s.detach c) c none :=
  h.moves h.detach (.detach s c) (fun _ => parent_detach) fun q _ => by
    rw [h.children_detach, h.erase_children]

theorem cycle?_eq_some (h : s.WellLinked) (below : c = p ∨ s.Above c p) :
    s.cycle? p c = some (.cycle (s.data c).name (s.data p).name) := by
  rw [cycle?, if_pos (h.mem_lineage.mpr below)]

theorem cycle?_eq_none (h : s.WellLinked) (below : ¬(c = p ∨ s.Above c p)) :
    s.cycle? p c = none := by
  rw [cycle?, if_neg fun hm => below (h.mem_lineage.mp hm)]

end Store

namespace World

variable {σ : Type} {w : World σ} {e : Edit} {fault : TreeFault}

/-- The edit is refused, and everything stays as it is. -/
def Refuses (w : World σ) (e : Edit) (fault : TreeFault) : Prop :=
  (Script.perform e).run w = (.failed (.tree fault), w)

/-- The edit is made, and leaves the store. -/
def Makes (w : World σ) (e : Edit) (s : Store) : Prop :=
  (Script.perform e).run w = (.done (), { w with store := s })

theorem refuses_of_some (h : e.refusal? w.store = some (.tree fault)) : w.Refuses e fault := by
  rw [Refuses, Script.run_perform, h]

theorem makes_of_none (h : e.refusal? w.store = none) : w.Makes e (e.apply w.store) :=
  Script.run_perform_of_none h

end World

/-- What putting a node below another one or before one of its children, and detaching it, do to the
lists of children. An edit that is refused names the nodes that were meant. -/
theorem makes_moves {σ : Type} (w : World σ) (linked : w.store.WellLinked) (p c r : NodeId)
    (hp : p ∈ w.store) (hc : c ∈ w.store) :
    let s := w.store
    let name n := (s.data n).name
    (c = p ∨ s.Above c p → w.Refuses (.append p c) (.cycle (name c) (name p))) ∧
    (¬(c = p ∨ s.Above c p) → ∃ s', w.Makes (.append p c) s' ∧ s.Moves s' c (some p) ∧
      s'.children p = (s.children p).filter (· ≠ c) ++ [c]) ∧
    (Script.perform (.insertBefore p c none)).run w = (Script.perform (.append p c)).run w ∧
    ((s.links r).parent ≠ some p →
      w.Refuses (.insertBefore p c (some r)) (.notAChild (name c) (name r) (name p))) ∧
    ((s.links r).parent = some p → c = r → w.Makes (.insertBefore p c (some r)) s) ∧
    ((s.links r).parent = some p → c ≠ r → c = p ∨ s.Above c p →
      w.Refuses (.insertBefore p c (some r)) (.cycle (name c) (name p))) ∧
    ((s.links r).parent = some p → c ≠ r → ¬(c = p ∨ s.Above c p) →
      ∃ s', w.Makes (.insertBefore p c (some r)) s' ∧ s.Moves s' c (some p) ∧
        ∃ before after, (s.children p).filter (· ≠ c) = before ++ r :: after ∧
          s'.children p = before ++ c :: r :: after) ∧
    ((s.links c).parent = none → w.Makes (.detach c) s) ∧
    ((s.links c).parent ≠ none → ∃ s', w.Makes (.detach c) s' ∧ s.Moves s' c none) := by
  intro s name
  refine ⟨fun below => ?_, fun below => ?_, ?_, fun hr => ?_, fun hr hcr => ?_,
    fun hr hcr below => ?_, fun hr hcr below => ?_, fun alone => ?_, fun _ => ?_⟩
  · have cycle := Store.cycle?_eq_some linked below
    exact World.refuses_of_some (by simp [Edit.refusal?, cycle, s, name])
  · have ok := Store.cycle?_eq_none linked below
    exact ⟨_, World.makes_of_none (by simp [Edit.refusal?, ok]), linked.moves_append hp hc ok⟩
  · rw [Script.run_perform, Script.run_perform]
    rfl
  · exact World.refuses_of_some (by simp [Edit.refusal?, Store.misplaced?, hr, s, name])
  · have kept : s.insertBefore p c r = s := by rw [Store.insertBefore, if_pos hcr]
    exact kept ▸ World.makes_of_none (by simp [Edit.refusal?, Store.misplaced?, hr, hcr, s])
  · have cycle := Store.cycle?_eq_some linked below
    exact World.refuses_of_some (by simp [Edit.refusal?, Store.misplaced?, hr, hcr, cycle, s, name])
  · have ok := Store.cycle?_eq_none linked below
    exact ⟨_, World.makes_of_none (by simp [Edit.refusal?, Store.misplaced?, hr, hcr, ok, s]),
      linked.moves_insertBefore hc hr hcr ok⟩
  · have kept : s.detach c = s := Store.detach_of_parent_eq_none alone
    exact kept ▸ World.makes_of_none rfl
  · exact ⟨_, World.makes_of_none rfl, linked.moves_detach⟩

/-- Below a node are two others, and below the last of these a third one. That one is put before the
first of them; but the topmost node cannot be put below it. -/
theorem makes_moves_nested :
    let nested : Script Unit Empty Unit := do
      for name in ["a", "b", "c", "d"] do
        Script.perform (.addNode (some name) none false none)
      Script.perform (.append ⟨0⟩ ⟨1⟩)
      Script.perform (.append ⟨0⟩ ⟨2⟩)
      Script.perform (.append ⟨2⟩ ⟨3⟩)
    let w : World Unit := (nested.run { store := {}, state := () }).2
    w.store.WellLinked ∧ ⟨0⟩ ∈ w.store ∧ ⟨3⟩ ∈ w.store ∧
    (∃ s', w.Makes (.insertBefore ⟨0⟩ ⟨3⟩ (some ⟨1⟩)) s' ∧ w.store.Moves s' ⟨3⟩ (some ⟨0⟩) ∧
      s'.children ⟨0⟩ = [⟨3⟩, ⟨1⟩, ⟨2⟩] ∧ s'.children ⟨2⟩ = []) ∧
    w.Refuses (.append ⟨3⟩ ⟨0⟩) (.cycle (some "a") (some "d")) := by
  intro nested w
  have linked : w.store.WellLinked := (Script.run_sound Store.sound_empty).linked
  have held : ⟨0⟩ ∈ w.store ∧ ⟨3⟩ ∈ w.store := by decide
  have topmost : ∀ n, ¬w.store.Above n ⟨0⟩ := fun n => Store.not_above_of_parent_eq_none (by decide)
  have above : w.store.Above ⟨0⟩ ⟨3⟩ := (Relation.TransGen.single (by decide)).tail
    (b := ⟨2⟩) (by decide)
  obtain ⟨_, _, _, _, _, _, inserts, _⟩ := makes_moves w linked ⟨0⟩ ⟨3⟩ ⟨1⟩ held.1 held.2
  obtain ⟨refuses, _⟩ := makes_moves w linked ⟨3⟩ ⟨0⟩ ⟨1⟩ held.2 held.1
  obtain ⟨s', makes, moves, _⟩ := inserts (by decide) (by decide)
    (not_or.mpr ⟨by decide, topmost _⟩)
  have here := congrArg (fun out => out.2.store.children ⟨0⟩) makes
  have left := moves.left ⟨2⟩ (by decide) (by decide)
  exact ⟨linked, held.1, held.2, ⟨s', makes, moves, here.symm.trans (by decide),
    left.trans (by decide)⟩, refuses (Or.inr above)⟩

end SnippetTree
