import SnippetTree.Store.View
import Mathlib.Data.Fintype.EquivFin
import Mathlib.Data.Finset.Card
import Mathlib.Logic.Relation
import Mathlib.Order.WellFounded

namespace SnippetTree.Store

/-- `a` is a proper ancestor of `b`. -/
def Above (s : Store) : NodeId → NodeId → Prop :=
  Relation.TransGen fun a b => (s.links b).parent = some a

/-- The links of `p` and of the nodes of `cs` say that `cs` are the children of `p`, in order. -/
structure Siblings (s : Store) (p : NodeId) (cs : List NodeId) : Prop where
  first : (s.links p).firstChild = cs.head?
  last : (s.links p).lastChild = cs.getLast?
  nodup : cs.Nodup
  /-- Each child names its parent and its two neighbours; an end of the chain has no neighbour. -/
  placed : ∀ before c after, cs = before ++ c :: after →
    (s.links c).parent = some p ∧ (s.links c).previousSibling = before.getLast? ∧
      (s.links c).nextSibling = after.head?
  complete : ∀ c, (s.links c).parent = some p → c ∈ cs

/-- The links of all nodes agree with each other, and form trees. -/
structure WellLinked (s : Store) : Prop where
  siblings : ∀ p, s.Siblings p (s.children p)
  alone : ∀ n, (s.links n).parent = none →
    (s.links n).nextSibling = none ∧ (s.links n).previousSibling = none
  acyclic : ∀ n, ¬s.Above n n

variable {s : Store}

theorem links_of_not_mem {n : NodeId} (h : n ∉ s) : s.links n = {} := by
  simp only [mem_iff, not_lt] at h
  simp [links, node, h]

theorem mem_of_parent {n p : NodeId} (h : (s.links n).parent = some p) : n ∈ s := by
  by_contra hn
  simp [links_of_not_mem hn] at h

theorem mem_of_above {n m : NodeId} (ha : s.Above n m) : m ∈ s := by
  cases ha with
  | single hp => exact mem_of_parent hp
  | tail _ hp => exact mem_of_parent hp

theorem above_iff_of_parent {n c p : NodeId} (hp : (s.links c).parent = some p) :
    s.Above n c ↔ n = p ∨ s.Above n p := by
  constructor
  · intro h
    cases h with
    | single hn => exact Or.inl (Option.some.inj (hn.symm.trans hp))
    | tail hn hq => exact Or.inr (Option.some.inj (hq.symm.trans hp) ▸ hn)
  · rintro (rfl | h)
    · exact .single hp
    · exact h.tail hp

theorem not_above_of_parent_eq_none {n c : NodeId} (hp : (s.links c).parent = none) : ¬s.Above n c := by
  intro h
  cases h with
  | single hn => simp [hp] at hn
  | tail _ hq => simp [hp] at hq

theorem length_le_size {ns : List NodeId} (nodup : ns.Nodup) (held : ∀ n ∈ ns, n ∈ s) :
    ns.length ≤ s.nodes.size := by
  have hn : (ns.map NodeId.index).Nodup :=
    nodup.map fun a b h => by cases a; cases b; simpa using h
  have hs : (ns.map NodeId.index).toFinset ⊆ Finset.range s.nodes.size := by
    intro i hi
    obtain ⟨n, hm, rfl⟩ := List.mem_map.mp (List.mem_toFinset.mp hi)
    exact Finset.mem_range.mpr (held n hm)
  have hc := Finset.card_le_card hs
  rwa [List.toFinset_card_of_nodup hn, List.length_map, Finset.card_range] at hc

theorem chain_eq_of_links {next : NodeId → Option NodeId} {cs : List NodeId} {bound : Nat}
    (links : ∀ before c after, cs = before ++ c :: after → next c = after.head?)
    (hb : cs.length ≤ bound) : chain next bound cs.head? = cs := by
  induction cs generalizing bound with
  | nil => cases bound <;> rfl
  | cons c cs ih =>
    cases bound with
    | zero => simp at hb
    | succ bound =>
      have hc : next c = cs.head? := links [] c cs rfl
      have ht : chain next bound cs.head? = cs :=
        ih (fun before d after h => links (c :: before) d after (by rw [h]; rfl)) (by simpa using hb)
      change c :: chain next bound (next c) = c :: cs
      rw [hc, ht]

theorem mem_chain_next {next : NodeId → Option NodeId} {bound : Nat} {start : Option NodeId}
    {a b : NodeId} (ha : a ∈ chain next bound start) (hb : next a = some b)
    (room : (chain next bound start).length < bound) : b ∈ chain next bound start := by
  induction bound generalizing start with
  | zero => simp at room
  | succ bound ih =>
    cases start with
    | none => simp [chain] at ha
    | some n =>
      simp only [chain, List.length_cons, Nat.add_lt_add_iff_right, List.mem_cons] at ha room ⊢
      rcases ha with rfl | ha
      · rw [hb] at room ⊢
        cases bound with
        | zero => simp at room
        | succ bound => exact Or.inr (by simp [chain])
      · exact Or.inr (ih ha room)

theorem mem_parents {bound : Nat} {n m : NodeId}
    (hm : m ∈ chain (fun m => (s.links m).parent) bound (some n)) : m = n ∨ s.Above m n := by
  induction bound generalizing n with
  | zero => simp [chain] at hm
  | succ bound ih =>
    simp only [chain, List.mem_cons] at hm
    rcases hm with rfl | hm
    · exact Or.inl rfl
    · cases hp : (s.links n).parent with
      | none => cases bound <;> simp [hp, chain] at hm
      | some p => exact Or.inr ((above_iff_of_parent hp).mpr (ih (hp ▸ hm)))

theorem nodup_parents (acyclic : ∀ n, ¬s.Above n n) (bound : Nat) (n : NodeId) :
    (chain (fun m => (s.links m).parent) bound (some n)).Nodup := by
  induction bound generalizing n with
  | zero => exact .nil
  | succ bound ih =>
    simp only [chain, List.nodup_cons]
    cases hp : (s.links n).parent with
    | none => cases bound <;> simp [chain]
    | some p =>
      refine ⟨fun hm => ?_, ih p⟩
      exact acyclic n ((above_iff_of_parent hp).mpr (mem_parents hm))

namespace Siblings

variable {p c : NodeId} {cs : List NodeId}

theorem parent (h : s.Siblings p cs) (hc : c ∈ cs) : (s.links c).parent = some p := by
  obtain ⟨before, after, rfl⟩ := List.append_of_mem hc
  exact (h.placed before c after rfl).1

theorem mem_iff (h : s.Siblings p cs) : c ∈ cs ↔ (s.links c).parent = some p :=
  ⟨h.parent, h.complete c⟩

theorem children_eq (h : s.Siblings p cs) : s.children p = cs := by
  have hb : cs.length ≤ s.nodes.size :=
    length_le_size h.nodup fun c hc => mem_of_parent (h.parent hc)
  unfold children
  rw [h.first]
  exact chain_eq_of_links (fun before c after he => (h.placed before c after he).2.2) hb

theorem mem_store (h : s.Siblings p cs) (hc : c ∈ cs) : p ∈ s := by
  by_contra hp
  have hf := h.first
  rw [links_of_not_mem hp] at hf
  cases cs with
  | nil => simp at hc
  | cons d ds => simp at hf

end Siblings

namespace WellLinked

variable {p c n m : NodeId}

theorem mem_children (h : s.WellLinked) : c ∈ s.children p ↔ (s.links c).parent = some p :=
  (h.siblings p).mem_iff

theorem parent_mem (h : s.WellLinked) (hp : (s.links c).parent = some p) : p ∈ s :=
  (h.siblings p).mem_store (h.mem_children.mpr hp)

theorem children_of_not_mem (h : s.WellLinked) (hp : p ∉ s) : s.children p = [] := by
  rw [List.eq_nil_iff_forall_not_mem]
  exact fun c hc => hp (h.parent_mem (h.mem_children.mp hc))

theorem above_mem (h : s.WellLinked) (ha : s.Above n m) : n ∈ s := by
  induction ha with
  | single hp => exact h.parent_mem hp
  | tail _ _ ih => exact ih

/-- Statements about nodes may be proved from their children up. -/
theorem children_induction (h : s.WellLinked) {motive : NodeId → Prop}
    (step : ∀ n, (∀ c ∈ s.children n, motive c) → motive n) (n : NodeId) : motive n := by
  let below : {n // n ∈ s} → {n // n ∈ s} → Prop := fun a b => s.Above b a
  have : Finite {n // n ∈ s} :=
    Finite.of_injective (fun a => (⟨a.1.index, a.2⟩ : Fin s.nodes.size)) fun a b hab => by
      obtain ⟨⟨i⟩, _⟩ := a
      obtain ⟨⟨j⟩, _⟩ := b
      simpa using hab
  have : IsTrans _ below := ⟨fun a b c hab hbc => Relation.TransGen.trans hbc hab⟩
  have : Std.Irrefl below := ⟨fun a => h.acyclic a⟩
  have wf : WellFounded below := Finite.wellFounded_of_trans_of_irrefl below
  by_cases hn : n ∈ s
  · have held : ∀ a : {n // n ∈ s}, motive a := by
      intro a
      induction a using wf.induction with
      | _ a ih =>
        apply step
        intro c hc
        have hp := h.mem_children.mp hc
        exact ih ⟨c, mem_of_parent hp⟩ (.single hp)
    exact held ⟨n, hn⟩
  · apply step
    simp [h.children_of_not_mem hn]

theorem mem_lineage (h : s.WellLinked) : m ∈ s.lineage n ↔ m = n ∨ s.Above m n := by
  refine ⟨mem_parents, fun hm => ?_⟩
  have hn : n ∈ s.lineage n := by simp [lineage, chain]
  rcases hm with rfl | hm
  · exact hn
  · have held : ∀ a ∈ s.lineage n, a ∈ s := by
      intro a ha
      rcases mem_parents ha with rfl | ha
      · exact mem_of_above hm
      · exact h.above_mem ha
    have room : (s.lineage n).length < s.nodes.size + 1 :=
      Nat.lt_succ_of_le (length_le_size (nodup_parents h.acyclic _ _) held)
    induction hm using Relation.TransGen.head_induction_on with
    | single hp => exact mem_chain_next hn hp room
    | head hp _ ih => exact mem_chain_next ih hp room

end WellLinked

end SnippetTree.Store
