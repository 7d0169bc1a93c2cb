import SnippetTree.Proofs.Rearranging

namespace SnippetTree

open Cell Script

theorem Cell.nodup_roots {ts : List (Outline Cell)} (nodup : (ids ts).Nodup) : (roots ts).Nodup := by
  induction ts using Outline.forest_induction with
  | nil => exact .nil
  | cons a cs ts _ iht =>
    rw [ids_cons, List.nodup_cons, List.nodup_append] at nodup
    refine List.nodup_cons.mpr ⟨fun ha => nodup.1 ?_, iht nodup.2.2.1⟩
    exact List.mem_append_right _ (roots_subset_ids ts ha)

namespace Store

variable {s s' : Store} {n m p c last : NodeId} {cs : List NodeId} {ts us : List (Outline Cell)}

theorem Shows.map_outline (h : s.Shows ts) (linked : s.WellLinked) :
    (roots ts).map s.outline = ts.map (Outline.map Cell.id) := by
  induction h with
  | nil => rfl
  | @cons a cs ts _ children below _ _ iht =>
    rw [roots_cons, List.map_cons, List.map_cons, Outline.map_node, iht,
      below.outline_eq linked children]

theorem Shows.labels_map_outline (h : s.Shows ts) (linked : s.WellLinked) :
    Outline.labels ((roots ts).map s.outline) = ids ts := by
  rw [h.map_outline linked, Outline.labels_map]
  rfl

theorem Shows.preorder_outline (h : s.Shows ts) (linked : s.WellLinked)
    (children : s.children n = roots ts) : (s.outline n).preorder = n :: ids ts := by
  rw [h.outline_eq linked children, Outline.preorder_node, Outline.labels_map]
  rfl

theorem Shows.child_mem {c : NodeId} (h : s.Shows ts) (linked : s.WellLinked) (hm : m ∈ ids ts)
    (hc : c ∈ s.children m) : c ∈ ids ts := by
  have parent := linked.mem_children.mp hc
  obtain ⟨r, hr, hrm⟩ := (h.mem_ids_iff linked).mp hm
  refine (h.mem_ids_iff linked).mpr ⟨r, hr, Or.inr ?_⟩
  exact (above_iff_of_parent parent).mpr (hrm.imp_left Eq.symm)

theorem Shows.child_not_root {c : NodeId} (h : s.Shows ts) (linked : s.WellLinked)
    (nodup : (ids ts).Nodup) (hm : m ∈ ids ts) (hc : c ∈ s.children m) : c ∉ roots ts := by
  induction h with
  | nil => simp at hm
  | @cons a cs ts _ children below rest _ iht =>
    rw [ids_cons, List.nodup_cons, List.nodup_append] at nodup
    obtain ⟨ha, -, nodup, apart⟩ := nodup
    rw [roots_cons, List.mem_cons, not_or]
    rw [ids_cons, List.mem_cons, List.mem_append] at hm
    have inner : c ∈ ids cs → ¬c = a.id ∧ c ∉ roots ts := fun hcs =>
      ⟨fun he => ha (by simp [← he, hcs]), fun hts => apart c hcs c (roots_subset_ids ts hts) rfl⟩
    rcases hm with rfl | hm | hm
    · exact inner (roots_subset_ids cs (children ▸ hc))
    · exact inner (below.child_mem linked hm hc)
    · exact ⟨fun he => ha (by simp [← he, rest.child_mem linked hm hc]), iht nodup hm⟩

theorem above_congr {b : NodeId}
    (parents : ∀ m, m = b ∨ s.Above m b → (s'.links m).parent = (s.links m).parent) {a : NodeId} :
    s'.Above a b ↔ s.Above a b := by
  constructor
  · intro h
    induction h with
    | single hp => exact .single ((parents _ (Or.inl rfl)).symm.trans hp)
    | @tail m b _ hp ih =>
      have hp' : (s.links b).parent = some m := (parents b (Or.inl rfl)).symm.trans hp
      refine (ih fun k hk => parents k (Or.inr ?_)).tail hp'
      exact (above_iff_of_parent hp').mpr hk
  · intro h
    induction h with
    | single hp => exact .single ((parents _ (Or.inl rfl)).trans hp)
    | @tail m b _ hp ih =>
      refine (ih fun k hk => parents k (Or.inr ?_)).tail ((parents b (Or.inl rfl)).trans hp)
      exact (above_iff_of_parent hp).mpr hk

theorem not_above_append {d : NodeId} (hp : p ∈ s) (hc : c ∈ s) (out : ¬(c = p ∨ s.Above c p))
    (out' : ¬(d = p ∨ s.Above d p)) : ¬(d = p ∨ (s.append p c).Above d p) := by
  rintro (rfl | ha)
  · exact out' (Or.inl rfl)
  · rcases above_of_new_parent (fun m => parent_append_eq hp hc) ha with ha | ⟨_, hp'⟩
    · exact out' (Or.inr ha)
    · exact out (hp'.imp_left Eq.symm)

/-- From the first store to the second one, the nodes `cs` were moved below `p`, in their order. -/
structure Gathers (s s' : Store) (p : NodeId) (cs : List NodeId) : Prop where
  linked : s'.WellLinked
  relinked : s.Relinked s'
  parents : ∀ m, (s'.links m).parent = if m ∈ cs then some p else (s.links m).parent
  children : s'.children p = (s.children p).filter (· ∉ cs) ++ cs
  others : ∀ q, q ≠ p → s'.children q = (s.children q).filter (· ∉ cs)

theorem Gathers.nil (linked : s.WellLinked) : s.Gathers s p [] where
  linked := linked
  relinked := .refl s
  parents := fun m => by simp
  children := by simp
  others := fun q _ => by simp

theorem Gathers.cons {s₁ : Store} (linked : s.WellLinked) (new : c ∉ cs)
    (moves : s.Moves s₁ c (some p)) (first : s₁.children p = (s.children p).filter (· ≠ c) ++ [c])
    (h : s₁.Gathers s' p cs) : s.Gathers s' p (c :: cs) where
  linked := h.linked
  relinked := moves.relinked.trans h.relinked
  parents := by
    intro m
    rw [h.parents]
    by_cases hm : m = c
    · subst hm
      simp [new, moves.parent]
    · simp [hm, moves.parents m hm]
  children := by
    rw [h.children, first, List.filter_append, List.filter_filter]
    have hself : [c].filter (· ∉ cs) = [c] := by simp [new]
    rw [hself, List.append_assoc, List.singleton_append]
    congr 1
    exact List.filter_congr fun m _ => by simp [Bool.and_comm]
  others := by
    intro q hq
    have one : s₁.children q = (s.children q).filter (· ≠ c) := by
      by_cases hc : (s.links c).parent = some q
      · exact moves.left q hc fun he => hq (Option.some.inj he).symm
      · rw [moves.others q hc fun he => hq (Option.some.inj he).symm, linked.filter_children hc]
    rw [h.others q hq, one, List.filter_filter]
    exact List.filter_congr fun m _ => by simp [Bool.and_comm]

theorem Gathers.children_eq (h : s.Gathers s' p cs) (hq : m ≠ p)
    (apart : ∀ c ∈ cs, c ∉ s.children m) : s'.children m = s.children m := by
  rw [h.others m hq, List.filter_eq_self]
  exact fun c hc => by simpa using fun hm => apart c hm hc

end Store

namespace Script

variable {σ : Type} {w : World σ} {p n : NodeId} {cs : List NodeId}

theorem run_forM_append (linked : w.store.WellLinked) (held : p ∈ w.store) (nodup : cs.Nodup)
    (heldAll : ∀ c ∈ cs, c ∈ w.store) (out : ∀ c ∈ cs, ¬(c = p ∨ w.store.Above c p)) :
    ∃ s', (cs.forM fun c => perform (.append p c)).run w = (.done (), { w with store := s' }) ∧
      w.store.Gathers s' p cs := by
  induction cs generalizing w with
  | nil => exact ⟨w.store, rfl, .nil linked⟩
  | cons c cs ih =>
    obtain ⟨new, nodup⟩ := List.nodup_cons.mp nodup
    have hc := heldAll c List.mem_cons_self
    have ok := Store.cycle?_eq_none linked (out c List.mem_cons_self)
    obtain ⟨moves, first⟩ := linked.moves_append held hc ok
    let w₁ : World σ := { w with store := w.store.append p c }
    have above : ∀ d ∈ cs, ¬(d = p ∨ w₁.store.Above d p) := fun d hd =>
      Store.not_above_append held hc (out c List.mem_cons_self) (out d (List.mem_cons_of_mem c hd))
    obtain ⟨s', hrun, gathers⟩ := ih (w := w₁) moves.linked (moves.relinked.mem_iff.mpr held) nodup
      (fun d hd => moves.relinked.mem_iff.mpr (heldAll d (List.mem_cons_of_mem c hd))) above
    have refused : (Edit.append p c).refusal? w.store = none := by simp [Edit.refusal?, ok]
    exact ⟨s', (run_bind_of_done (run_perform_of_none refused)).trans hrun,
      gathers.cons linked new moves first⟩

theorem run_drainWithin_eq_forM {m : NodeId} {bound : Nat} (linked : w.store.WellLinked)
    (held : p ∈ w.store) (other : m = p → cs = []) (children : w.store.children m = cs)
    (out : ∀ c ∈ cs, ¬(c = p ∨ w.store.Above c p)) (room : cs.length < bound) :
    (drainWithin m (fun c => perform (.append p c)) bound).run w =
      (cs.forM fun c => perform (.append p c)).run w := by
  induction cs generalizing w bound with
  | nil =>
    obtain ⟨bound, rfl⟩ := Nat.exists_eq_succ_of_ne_zero (by omega : bound ≠ 0)
    exact run_drainWithin_of_nil linked children
  | cons c cs ih =>
    obtain ⟨bound, rfl⟩ := Nat.exists_eq_succ_of_ne_zero (by omega : bound ≠ 0)
    have hne : m ≠ p := fun he => List.cons_ne_nil c cs (other he)
    have hc : (w.store.links c).parent = some m := linked.mem_children.mp (by simp [children])
    have ok := Store.cycle?_eq_none linked (out c List.mem_cons_self)
    obtain ⟨moves, -⟩ := linked.moves_append held (Store.mem_of_parent hc) ok
    have hrun := run_perform_of_none (w := w) (e := .append p c) (by simp [Edit.refusal?, ok])
    have new : c ∉ cs := by
      have nodup := (linked.siblings m).nodup
      rw [children] at nodup
      exact (List.nodup_cons.mp nodup).1
    have rest : (w.store.append p c).children m = cs := by
      rw [moves.left m hc fun he => hne (Option.some.inj he).symm, children,
        List.filter_cons_of_neg (by simp), List.filter_eq_self]
      intro d hd
      simp only [decide_eq_true_eq]
      rintro rfl
      exact new hd
    let w₁ : World σ := { w with store := w.store.append p c }
    have out₁ : ∀ d ∈ cs, ¬(d = p ∨ w₁.store.Above d p) := fun d hd =>
      Store.not_above_append held (Store.mem_of_parent hc) (out c List.mem_cons_self)
        (out d (List.mem_cons_of_mem c hd))
    have hrest := ih (w := w₁) moves.linked (moves.relinked.mem_iff.mpr held)
      (fun he => absurd he hne) rest out₁
      (Nat.lt_of_succ_lt_succ room)
    have hforM : ((c :: cs).forM fun c => perform (.append p c)).run w =
        (cs.forM fun c => perform (.append p c)).run w₁ := run_bind_of_done hrun
    have hdrain : (drainWithin m (fun c => perform (.append p c)) (bound + 1)).run w =
        (drainWithin m (fun c => perform (.append p c)) bound).run w₁ :=
      run_drainWithin_of_cons linked children hrun
    exact hdrain.trans (hrest.trans hforM.symm)

theorem run_drain_append {m : NodeId} (linked : w.store.WellLinked) (held : p ∈ w.store)
    (other : m = p → w.store.children m = [])
    (out : ∀ c ∈ w.store.children m, ¬(c = p ∨ w.store.Above c p)) :
    (drain m fun c => perform (.append p c)).run w =
      ((w.store.children m).forM fun c => perform (.append p c)).run w :=
  (run_bind_of_done (run_read ..)).trans (run_drainWithin_eq_forM linked held other rfl out
    (Nat.lt_succ_of_le linked.length_children_le))

end Script

namespace Store

variable {s s' : Store} {n last : NodeId} {ts us : List (Outline Cell)}

/-- Where trees that are apart from the subtree of a node are gathered below the last leaf of it,
the subtree is continued by them. -/
theorem Gathers.outline_eq (linked : s.WellLinked) (shown : s.Shows ts)
    (own : s.children n = roots ts)
    (more : s.Shows us) (hl : (n :: ids ts).getLast? = some last)
    (apart : ((n :: ids ts) ++ ids us).Nodup) (h : s.Gathers s' last (roots us)) :
    s'.outline n = .node n (Outline.graft (ts.map (Outline.map Cell.id))
      (us.map (Outline.map Cell.id))) := by
  obtain ⟨nodup, nodup', disjoint⟩ := List.nodup_append.mp apart
  have inside : ∀ c m, (s.links c).parent = some m → m ∈ n :: ids ts → c ∈ ids ts := by
    intro c m hc hm
    rw [shown.mem_ids_iff_above linked own]
    rcases List.mem_cons.mp hm with rfl | hm
    · exact .single hc
    · exact ((shown.mem_ids_iff_above linked own).mp hm).tail hc
  have same : ∀ m ∈ n :: ids ts, m ≠ last → s'.children m = s.children m := fun m hm hne =>
    h.children_eq hne fun c hc hmc => disjoint c
      (List.mem_cons_of_mem n (inside c m (linked.mem_children.mp hmc) hm)) c
      (roots_subset_ids us hc) rfl
  have gathered : s'.children last = roots us := by
    rw [h.children, shown.children_last own hl]
    rfl
  have shown' : s'.Shows us := by
    refine h.relinked.shows more fun m hm => h.children_eq ?_ fun c hc hmc => ?_
    · rintro rfl
      exact disjoint m (List.mem_of_getLast? hl) m hm rfl
    · exact more.child_not_root linked nodup' hm hmc hc
  have children' : s'.children n = roots (Outline.graft ts us) :=
    children_graft own nodup hl (same n List.mem_cons_self) gathered
  have grafted : s'.Shows (Outline.graft ts us) := by
    refine shown.graft shown' (List.nodup_cons.mp nodup).2 (fun m hm => ?_)
      (fun m _ => h.relinked.element m) (fun m hm => same m (List.mem_cons_of_mem n hm)) gathered
    rw [List.getLast?_cons_of_ne_nil (List.ne_nil_of_mem (List.mem_of_getLast? hm)), hm] at hl
    exact Option.some.inj hl
  rw [grafted.outline_eq h.linked children', Outline.map_graft]

theorem Gathers.above_iff {a b : NodeId} (h : s.Gathers s' p cs)
    (apart : ∀ c ∈ cs, ¬(b = c ∨ s.Above c b)) : s'.Above a b ↔ s.Above a b := by
  refine above_congr fun m hm => ?_
  rw [h.parents, if_neg]
  intro hc
  exact apart m hc (hm.imp_left Eq.symm)

theorem Shows.lastLeaf_eq_top (h : s.Shows ts)
    (children : s.children n = roots ts) (hl : (n :: ids ts).getLast? = some last) :
    last = n ↔ s.children n = [] := by
  constructor
  · rintro rfl
    exact h.children_last children hl
  · intro alone
    rw [alone] at children
    obtain rfl : ts = [] := List.map_eq_nil_iff.mp children.symm
    exact (Option.some.inj hl).symm

end Store

/-- The last leaf of a subtree is found within as many steps as there are nodes, and no step leads
on from it. It is the last node of the subtree in document order, and the top one just where that
has no children. A forest of other trees can be appended to it tree by tree. Then the subtree is
continued by the forest, and above its nodes are the same ones as before. Draining a node into the
last leaf is appending all its children. -/
theorem lastLeaf_continues {σ : Type} (w : World σ) (linked : w.store.WellLinked) (n : NodeId)
    (held : n ∈ w.store) :
    let s := w.store
    let last := s.lastLeaf n
    (∀ bound, s.nodes.size ≤ bound → s.lastLeafWithin bound n = last) ∧
    (s.links last).lastChild = none ∧
    (s.outline n).preorder.getLast? = some last ∧
    (last = n ↔ s.children n = []) ∧
    ∀ cs : List NodeId, (∀ c ∈ cs, c ∈ s) →
      ((s.outline n).preorder ++ Outline.labels (cs.map s.outline)).Nodup →
      ∃ s', (cs.forM fun c => perform (.append last c)).run w = (.done (), { w with store := s' }) ∧
        s'.WellLinked ∧
        (s'.outline n).preorder = (s.outline n).preorder ++ Outline.labels (cs.map s.outline) ∧
        s'.outline n = .node n (Outline.graft (s.outline n).children (cs.map s.outline)) ∧
        (∀ a, ∀ b ∈ (s.outline n).preorder, s'.Above a b ↔ s.Above a b) ∧
        ∀ m, s.children m = cs →
          (drain m fun c => perform (.append last c)).run w = (.done (), { w with store := s' }) := by
  intro s last
  have shown : s.Shows (s.forest n) := linked.shows_forest
  have own : s.children n = roots (s.forest n) := linked.children_eq_forest
  have order : (s.outline n).preorder = n :: ids (s.forest n) := shown.preorder_outline linked own
  have inside : ∀ m, m ∈ n :: ids (s.forest n) ↔ m = n ∨ s.Above n m := fun m => by
    rw [List.mem_cons, linked.mem_forest_iff]
  have hl : (n :: ids (s.forest n)).getLast? = some last := shown.getLast?_eq_lastLeaf linked own
  have leaf : s.children last = [] := shown.children_last own hl
  have hlast : last ∈ s := by
    rcases (inside last).mp (List.mem_of_getLast? hl) with he | ha
    · exact he ▸ held
    · exact Store.mem_of_above ha
  refine ⟨fun bound room => ?_, ?_, order ▸ hl, shown.lastLeaf_eq_top own hl,
    fun cs heldAll apart => ?_⟩
  · have within := shown.getLast?_eq_lastLeafWithin linked own
      ((shown.length_ids_le linked own).trans room)
    exact Option.some.inj (within.symm.trans hl)
  · rw [(linked.siblings last).last, leaf]
    rfl
  obtain ⟨us, rfl, more⟩ := linked.exists_shows cs
  rw [order, more.labels_map_outline linked] at apart
  obtain ⟨-, nodup, disjoint⟩ := List.nodup_append.mp apart
  have beside : ∀ b ∈ n :: ids (s.forest n), ∀ c ∈ roots us, ¬(b = c ∨ s.Above c b) :=
    fun b hb c hc hcb => disjoint b hb b ((more.mem_ids_iff linked).mpr ⟨c, hc, hcb⟩) rfl
  have out : ∀ c ∈ roots us, ¬(c = last ∨ s.Above c last) := fun c hc hcl =>
    beside last (List.mem_of_getLast? hl) c hc (hcl.imp_left Eq.symm)
  obtain ⟨s', hrun, gathers⟩ := run_forM_append linked hlast (Cell.nodup_roots nodup) heldAll out
  have grown := gathers.outline_eq linked shown own more hl apart
  refine ⟨s', hrun, gathers.linked, ?_, ?_, fun a b hb => ?_, fun m hm => ?_⟩
  · rw [grown, Outline.preorder_node, Outline.labels_graft, Outline.labels_map, Outline.labels_map,
      order, more.labels_map_outline linked]
    rfl
  · rw [grown, shown.outline_eq linked own, more.map_outline linked]
    rfl
  · rw [order] at hb
    exact gathers.above_iff fun c hc => beside b hb c hc
  · rw [← hm] at out hrun
    exact (run_drain_append linked hlast (fun he => he ▸ leaf) out).trans hrun

/-- A node with one node below the other, and next to it a node with two others, the first of which
has a fourth one below it. The two others and what is below them continue the first tree. -/
theorem lastLeaf_continues_drained :
    let trees : Script Unit Empty Unit := do
      for name in ["a", "b", "c", "d", "e", "f", "g"] do
        perform (.addNode (some name) none false none)
      for (p, c) in [(0, 1), (1, 2), (3, 4), (3, 5), (4, 6)] do
        perform (.append ⟨p⟩ ⟨c⟩)
    let w : World Unit := (trees.run { store := {}, state := () }).2
    w.store.WellLinked ∧ ⟨0⟩ ∈ w.store ∧ w.store.lastLeaf ⟨0⟩ = ⟨2⟩ ∧ ∃ s',
      (drain ⟨3⟩ fun c => perform (.append ⟨2⟩ c)).run w = (.done (), { w with store := s' }) ∧
      (s'.outline ⟨0⟩).preorder = [⟨0⟩, ⟨1⟩, ⟨2⟩, ⟨4⟩, ⟨6⟩, ⟨5⟩] ∧
      ∀ a, s'.Above a ⟨2⟩ ↔ w.store.Above a ⟨2⟩ := by
  intro trees w
  have linked : w.store.WellLinked := (run_sound Store.sound_empty).linked
  have held : ⟨0⟩ ∈ w.store := by decide
  have leaf : w.store.lastLeaf ⟨0⟩ = ⟨2⟩ := by decide
  have order : (w.store.outline ⟨0⟩).preorder = [⟨0⟩, ⟨1⟩, ⟨2⟩] := by decide
  have more : Outline.labels ([⟨4⟩, ⟨5⟩].map w.store.outline) = [⟨4⟩, ⟨6⟩, ⟨5⟩] := by decide
  obtain ⟨-, -, -, -, continues⟩ := lastLeaf_continues w linked ⟨0⟩ held
  obtain ⟨s', -, -, grown, -, above, drained⟩ := continues [⟨4⟩, ⟨5⟩] (by decide) (by
    rw [order, more]
    decide)
  rw [order, more] at grown
  refine ⟨linked, held, leaf, s', ?_, grown, fun a => above a ⟨2⟩ (by simp [order])⟩
  rw [← leaf]
  exact drained ⟨3⟩ (by decide)

end SnippetTree
