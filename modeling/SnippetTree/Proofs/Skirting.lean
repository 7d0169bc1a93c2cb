import SnippetTree.Proofs.Shown

namespace SnippetTree

namespace Store

variable {s s₁ s₂ s' : Store} {walked ns ms cs bs : List NodeId} {a c m n p : NodeId}

/-- `m` is one of `ns` or below one of them. -/
def Under (s : Store) (ns : List NodeId) (m : NodeId) : Prop := ∃ n ∈ ns, m = n ∨ s.Above n m

theorem under_cons : s.Under (c :: cs) m ↔ (m = c ∨ s.Above c m) ∨ s.Under cs m := by
  simp [Under]

theorem under_singleton : s.Under [c] m ↔ m = c ∨ s.Above c m := by
  simp [Under]

theorem under_of_mem (h : n ∈ ns) : s.Under ns n := ⟨n, h, Or.inl rfl⟩

theorem Under.mono (h : s.Under ns m) (sub : ns ⊆ ms) : s.Under ms m := by
  obtain ⟨n, hn, hm⟩ := h
  exact ⟨n, sub hn, hm⟩

theorem Under.of_parent (h : s.Under ns n) (hp : (s.links m).parent = some n) : s.Under ns m := by
  obtain ⟨a, ha, hn⟩ := h
  exact ⟨a, ha, Or.inr ((above_iff_of_parent hp).mpr (hn.imp_left Eq.symm))⟩

theorem Under.held (h : s.Under ns m) (held : ∀ n ∈ ns, n ∈ s) : m ∈ s := by
  obtain ⟨n, hn, rfl | ha⟩ := h
  · exact held m hn
  · exact mem_of_above ha

theorem WellLinked.under_children (linked : s.WellLinked) :
    s.Under (s.children c) m ↔ s.Above c m := linked.above_iff.symm

/-- The nodes below a node are told by the children of the node and of those below it. -/
theorem WellLinked.above_iff_of_children (linked : s.WellLinked) (linked' : s'.WellLinked)
    (same : ∀ k, k = c ∨ s.Above c k → s'.children k = s.children k) :
    s'.Above c m ↔ s.Above c m := by
  constructor
  · intro h
    induction h with
    | single hp =>
      rw [← linked'.mem_children, same c (Or.inl rfl), linked.mem_children] at hp
      exact .single hp
    | tail _ hp ih =>
      rw [← linked'.mem_children, same _ (Or.inr ih), linked.mem_children] at hp
      exact ih.tail hp
  · intro h
    induction h with
    | single hp =>
      rw [← linked.mem_children, ← same c (Or.inl rfl), linked'.mem_children] at hp
      exact .single hp
    | tail ha hp ih =>
      rw [← linked.mem_children, ← same _ (Or.inr ha), linked'.mem_children] at hp
      exact ih.tail hp

/-- From the first store to the second one, the nodes at or below `walked` that are not at or below
`cs` keep their parent, and those that have none of `cs` as children keep their children. -/
structure Skirts (s s' : Store) (walked cs : List NodeId) : Prop where
  parent : ∀ m, s.Under walked m → ¬s.Under cs m → (s'.links m).parent = (s.links m).parent
  children : ∀ m, s.Under walked m → ¬s.Under cs m → (∀ c ∈ cs, c ∉ s.children m) →
    s'.children m = s.children m

theorem Skirts.refl (s : Store) (walked cs : List NodeId) : s.Skirts s walked cs :=
  ⟨fun _ _ _ => rfl, fun _ _ _ _ => rfl⟩

theorem Skirts.below (h : s.Skirts s' walked cs) (ha : a ∈ walked) (hm : m = a ∨ s.Above a m)
    (out : ¬s.Under cs m) : m = a ∨ s'.Above a m := by
  rcases hm with rfl | hm
  · exact Or.inl rfl
  · refine Or.inr ?_
    induction hm with
    | single hp => exact .single ((h.parent _ ⟨a, ha, Or.inr (.single hp)⟩ out).trans hp)
    | @tail b m hab hp ih =>
      have hp' := (h.parent m ⟨a, ha, Or.inr (hab.tail hp)⟩ out).trans hp
      exact (ih fun hb => out (hb.of_parent hp)).tail hp'

theorem Skirts.under (h : s.Skirts s' walked cs) (hm : s.Under walked m) (out : ¬s.Under cs m) :
    s'.Under walked m := by
  obtain ⟨a, ha, hm⟩ := hm
  exact ⟨a, ha, h.below ha hm out⟩

theorem Skirts.trans {walked' cs₁ cs₂ : List NodeId} (h : s.Skirts s₁ walked cs₁)
    (h' : s₁.Skirts s₂ walked' cs₂) (sub : walked ⊆ walked')
    (out : ∀ m, s.Under walked m → ¬s.Under cs m → ¬s.Under cs₁ m ∧ ¬s₁.Under cs₂ m)
    (apart : ∀ m, s.Under walked m → ¬s.Under cs m → (∀ c ∈ cs, c ∉ s.children m) →
      (∀ c ∈ cs₁, c ∉ s.children m) ∧
        (s₁.children m = s.children m → ∀ c ∈ cs₂, c ∉ s₁.children m)) :
    s.Skirts s₂ walked cs where
  parent := by
    intro m hm hcs
    obtain ⟨out₁, out₂⟩ := out m hm hcs
    rw [h'.parent m ((h.under hm out₁).mono sub) out₂, h.parent m hm out₁]
  children := by
    intro m hm hcs none
    obtain ⟨out₁, out₂⟩ := out m hm hcs
    obtain ⟨apart₁, apart₂⟩ := apart m hm hcs none
    have same := h.children m hm out₁ apart₁
    rw [h'.children m ((h.under hm out₁).mono sub) out₂ (apart₂ same), same]

/-- While some nodes are under walk, the children `cs` of one of them are still to be visited. -/
structure Awaits (s : Store) (walked : List NodeId) (p : NodeId) (bs cs : List NodeId) : Prop where
  linked : s.WellLinked
  pending : s.children p = bs ++ cs
  top : p ∈ walked
  held : ∀ a ∈ walked, a ∈ s
  out : ∀ a ∈ walked, ¬s.Under cs a

namespace Awaits

theorem parent (h : s.Awaits walked p bs cs) (hc : c ∈ cs) : (s.links c).parent = some p :=
  h.linked.mem_children.mp (by simp [h.pending, hc])

theorem under (h : s.Awaits walked p bs cs) (hm : s.Under cs m) : s.Under walked m := by
  obtain ⟨c, hc, hm⟩ := hm
  refine ⟨p, h.top, Or.inr ?_⟩
  rcases hm with rfl | hm
  · exact .single (h.parent hc)
  · exact .head (h.parent hc) hm

theorem mem (h : s.Awaits walked p bs cs) (hm : s.Under cs m) : m ∈ s := (h.under hm).held h.held

theorem apart (h : s.Awaits walked p bs (c :: cs)) (hm : s.Under cs m) : ¬s.Under [c] m := by
  rw [under_singleton]
  intro hc
  obtain ⟨d, hd, hm⟩ := hm
  have same := h.linked.eq_of_common (h.parent List.mem_cons_self)
    (h.parent (List.mem_cons_of_mem c hd)) hc hm
  have nodup := (h.linked.siblings p).nodup
  rw [h.pending] at nodup
  exact (List.nodup_cons.mp (List.nodup_append.mp nodup).2.1).1 (same ▸ hd)

theorem under_iff (h : s.Awaits walked p bs (c :: cs)) (linked : s'.WellLinked)
    (skirts : s.Skirts s' walked [c]) : s'.Under cs m ↔ s.Under cs m := by
  have below : ∀ d ∈ cs, s'.Above d m ↔ s.Above d m := fun d hd => by
    refine h.linked.above_iff_of_children linked fun k hk => ?_
    have under : s.Under cs k := ⟨d, hd, hk⟩
    refine skirts.children k (h.under (under.mono (List.subset_cons_self c cs))) (h.apart under) ?_
    intro b hb hbk
    rw [List.mem_singleton.mp hb, h.linked.mem_children, h.parent List.mem_cons_self] at hbk
    exact h.out p h.top (Option.some.inj hbk ▸ under.mono (List.subset_cons_self c cs))
  constructor <;> rintro ⟨d, hd, hm⟩
  · exact ⟨d, hd, hm.imp_right (below d hd).mp⟩
  · exact ⟨d, hd, hm.imp_right (below d hd).mpr⟩

end Awaits

end Store

end SnippetTree
