import SnippetTree.Proofs.Layered
import SnippetTree.Proofs.Unshared
import SnippetTree.Proofs.Untouched

namespace SnippetTree

namespace Store

variable {σ : Type} {w : World σ} {s s' t : Store} {n m c p : NodeId} {R : Region}

theorem WellLinked.mem_tree (linked : s.WellLinked) : m ∈ s.tree n ↔ m = n ∨ s.Above n m := by
  rw [tree, List.mem_cons, mem_below linked]

def whole (s : Store) : Region where
  nodes := (· ∈ s)
  records := s.Holds

/-- A tree with the records that its nodes carry. -/
def part (s : Store) (n : NodeId) : Region where
  nodes := (· ∈ s.tree n)
  records x := ∃ m ∈ s.tree n, x ∈ s.records m

end Store

namespace Region.Intact

open Store

variable {R : Region} {s t : Store} {n p : NodeId}

theorem children_eq (h : R.Intact s t) (linked : s.WellLinked)
    (closed : ∀ c, (s.links c).parent = some p → R.nodes c) (hp : R.nodes p) :
    t.children p = s.children p := by
  have inside : ∀ c ∈ s.children p, R.nodes c := fun c hc =>
    closed c (linked.mem_children.mp hc)
  refine ((linked.siblings p).congr ?_ ?_ (fun c hc => ?_) fun c hc => ?_).children_eq
  · rw [h.links p hp]
  · rw [h.links p hp]
  · rw [h.links c (inside c hc)]
    exact ⟨rfl, rfl, rfl⟩
  · rwa [h.links c ((h.closed c p hc).mpr hp)] at hc

theorem document_eq (h : R.Intact s t) (linked : s.WellLinked)
    (own : ∀ m, R.nodes m → ∀ x ∈ s.records m, R.records x) (inside : ∀ m ∈ s.tree n, R.nodes m) :
    t.document n = s.document n := by
  have same : ∀ m ∈ s.tree n, t.element m = s.element m ∧ t.children m = s.children m := by
    intro m hm
    have hin := inside m hm
    refine ⟨h.element_eq hin (own m hin), h.children_eq linked (fun c hc => ?_) hin⟩
    refine inside c (linked.mem_tree.mpr (Or.inr ?_))
    exact (above_iff_of_parent hc).mpr ((linked.mem_tree.mp hm).imp_left Eq.symm)
  have shown : t.Shows (s.forest n) := linked.shows_forest.congr fun m hm =>
    same m (linked.mem_tree.mpr (Or.inr (linked.mem_forest_iff.mp hm)))
  obtain ⟨helement, hchildren⟩ := same n List.mem_cons_self
  rw [shown.document_eq h.linked (hchildren.trans linked.children_eq_forest),
    linked.shows_forest.document_eq linked linked.children_eq_forest, helement]

end Region.Intact

namespace Store

variable {σ : Type} {w : World σ} {n : NodeId}

end Store

end SnippetTree
