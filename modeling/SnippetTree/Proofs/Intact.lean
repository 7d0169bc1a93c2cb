import SnippetTree.Proofs.Confining
import SnippetTree.Proofs.Filing
import SnippetTree.Proofs.Rearranging

namespace SnippetTree

/-- Some of the nodes and of the records of a store. -/
structure Region where
  nodes : NodeId → Prop
  records : RecordId → Prop

namespace Edit

def nodes : Edit → List NodeId
  | setName n _ | setValue n _ | setSelfClosing n _ | setRepetition n _ | setClasses n _
  | addClass n _ | setAttribute n _ | removeAttribute n _ | clearAttributes n | detach n => [n]
  | append parent child => [parent, child]
  | insertBefore parent child reference => parent :: child :: reference.toList
  | _ => []

def records : Edit → List RecordId
  | addNode _ _ _ repetition | setRepetition _ repetition => repetition.toList.map .inr
  | writeAttribute a _ | setAttribute _ a => [.inl a]
  | writeRepetition r _ => [.inr r]
  | _ => []

/-- The edit is given no node and no record of the region. -/
structure Outside (R : Region) (e : Edit) : Prop where
  nodes : ∀ n ∈ e.nodes, ¬R.nodes n
  records : ∀ x ∈ e.records, ¬R.records x

namespace Outside

variable {R : Region} {e : Edit} {n p c : NodeId}

theorem append (hp : ¬R.nodes p) (hc : ¬R.nodes c) : (Edit.append p c).Outside R :=
  ⟨by simpa [Edit.nodes] using ⟨hp, hc⟩, by simp [Edit.records]⟩

theorem insertBefore {r : NodeId} (hp : ¬R.nodes p) (hc : ¬R.nodes c) (hr : ¬R.nodes r) :
    (Edit.insertBefore p c (some r)).Outside R :=
  ⟨by simpa [Edit.nodes] using ⟨hp, hc, hr⟩, by simp [Edit.records]⟩

theorem setAttribute {a : AttributeId} (hn : ¬R.nodes n) (ha : ¬R.records (.inl a)) :
    (Edit.setAttribute n a).Outside R :=
  ⟨by simpa [Edit.nodes] using hn, by simpa [Edit.records] using ha⟩

end Outside

end Edit

namespace Store

variable {s t t' : Store} {n m p c r : NodeId} {a : AttributeId} {x : RecordId}

theorem append_of_not_mem (out : ¬(p ∈ s ∧ c ∈ s)) : s.append p c = s.detach c :=
  place_of_not_mem (by simpa using out)

theorem insertBefore_of_not_mem (hcr : c ≠ r) (out : ¬(p ∈ s ∧ c ∈ s)) :
    s.insertBefore p c r = s.detach c := by
  rw [insertBefore, if_neg hcr]
  exact place_of_not_mem (by simpa using out)

theorem WellLinked.exists_moves_append (h : s.WellLinked) (ok : s.cycle? p c = none) :
    ∃ dest, s.Moves (s.append p c) c dest ∧ ∀ q ∈ dest, q = p := by
  by_cases held : p ∈ s ∧ c ∈ s
  · exact ⟨some p, (h.moves_append held.1 held.2 ok).1, fun q hq => (Option.some.inj hq).symm⟩
  · rw [append_of_not_mem held]
    exact ⟨none, h.moves_detach, nofun⟩

theorem WellLinked.exists_moves_insertBefore (h : s.WellLinked) (ok : s.misplaced? p c r = none)
    (hcr : c ≠ r) : ∃ dest, s.Moves (s.insertBefore p c r) c dest ∧ ∀ q ∈ dest, q = p := by
  obtain ⟨hr, hcase⟩ := misplaced?_eq_none ok
  by_cases held : c ∈ s
  · exact ⟨some p, (h.moves_insertBefore held hr hcr (hcase.resolve_left hcr)).1,
      fun q hq => (Option.some.inj hq).symm⟩
  · rw [insertBefore_of_not_mem hcr fun both => held both.2]
    exact ⟨none, h.moves_detach, nofun⟩

end Store

namespace Region

variable {R : Region} {s t t' : Store} {n m p c : NodeId} {dest : Option NodeId}

open Store

/-- In the second store the region is as it was in the first one. Its nodes are linked only to each
other, and its records are carried only by its own nodes. -/
structure Intact (R : Region) (s t : Store) : Prop where
  linked : t.WellLinked
  held : ∀ n, R.nodes n → n ∈ t
  holds : ∀ x, R.records x → t.Holds x
  links : ∀ n, R.nodes n → t.links n = s.links n
  data : ∀ n, R.nodes n → t.data n = s.data n
  attributes : ∀ a, R.records (.inl a) → t.attributeAt a = s.attributeAt a
  repetitions : ∀ r, R.records (.inr r) → t.repetitionAt r = s.repetitionAt r
  closed : ∀ m p, (t.links m).parent = some p → (R.nodes m ↔ R.nodes p)
  apart : ∀ m, ¬R.nodes m → ∀ x ∈ t.records m, ¬R.records x

namespace Intact

theorem dress (h : R.Intact s t) (links : ∀ m, t'.links m = t.links m) (held : ∀ m ∈ t, m ∈ t')
    (data : ∀ m, R.nodes m → t'.data m = t.data m) (retains : t.Retains t')
    (apart : ∀ m, ¬R.nodes m → ∀ x ∈ t'.records m, x ∈ t.records m ∨ ¬R.records x) :
    R.Intact s t' where
  linked := h.linked.congr links
  held := fun n hn => held n (h.held n hn)
  holds := fun x hx => retains.holds (h.holds x hx)
  links := fun n hn => (links n).trans (h.links n hn)
  data := fun n hn => (data n hn).trans (h.data n hn)
  attributes := fun a ha => (retains.attributes a (h.holds _ ha)).2.trans (h.attributes a ha)
  repetitions := fun r hr => (retains.repetitions r (h.holds _ hr)).2.trans (h.repetitions r hr)
  closed := fun m p hp => h.closed m p (links m ▸ hp)
  apart := fun m hm x hx => (apart m hm x hx).elim (h.apart m hm x) id

theorem rewrite (h : R.Intact s t) (nodes : t'.nodes = t.nodes)
    (holds : ∀ x, t.Holds x → t'.Holds x)
    (attributes : ∀ a, R.records (.inl a) → t'.attributeAt a = t.attributeAt a)
    (repetitions : ∀ r, R.records (.inr r) → t'.repetitionAt r = t.repetitionAt r) :
    R.Intact s t' := by
  have hnode : ∀ m, t'.node m = t.node m := fun m => by rw [node, node, nodes]
  have hlinks : ∀ m, t'.links m = t.links m := fun m => congrArg Node.links (hnode m)
  have hdata : ∀ m, t'.data m = t.data m := fun m => congrArg Node.data (hnode m)
  exact
    { linked := h.linked.congr hlinks
      held := fun n hn => by rw [mem_iff, nodes]; exact h.held n hn
      holds := fun x hx => holds x (h.holds x hx)
      links := fun n hn => (hlinks n).trans (h.links n hn)
      data := fun n hn => (hdata n).trans (h.data n hn)
      attributes := fun a ha => (attributes a ha).trans (h.attributes a ha)
      repetitions := fun r hr => (repetitions r hr).trans (h.repetitions r hr)
      closed := fun m p hp => h.closed m p (hlinks m ▸ hp)
      apart := fun m hm x hx => h.apart m hm x (records_congr (hdata m) ▸ hx) }

theorem retain (h : R.Intact s t) (nodes : t'.nodes = t.nodes) (retains : t.Retains t') :
    R.Intact s t' :=
  h.rewrite nodes (fun _ hx => retains.holds hx)
    (fun a ha => (retains.attributes a (h.holds _ ha)).2) fun r hr =>
      (retains.repetitions r (h.holds _ hr)).2

theorem modifyData (h : R.Intact s t) (hn : ¬R.nodes n) {f : Data → Data}
    (records : ∀ x ∈ (f (t.data n)).records, x ∈ t.records n ∨ ¬R.records x) :
    R.Intact s (t.modifyData n f) := by
  refine h.dress (fun m => links_modifyData ..) (fun m hm => mem_modifyNode.mpr hm) (fun m hm => ?_)
    (.of_altersNodes (altersNodes_modifyNode ..)) fun m _ x hx => ?_
  · rw [data_modifyData, if_neg]
    rintro ⟨rfl, _⟩
    exact hn hm
  · rw [Store.records, data_modifyData] at hx
    split at hx
    next hm => exact hm.1 ▸ records x hx
    next => exact Or.inl hx

theorem addClasses (h : R.Intact s t) (hn : ¬R.nodes n) (names : List String) :
    R.Intact s (names.foldl (·.addClass n) t) := by
  induction names generalizing t with
  | nil => exact h
  | cons name names ih =>
    refine ih (h.modifyData hn fun x hx => Or.inl ?_)
    split at hx <;> exact hx

theorem setAttribute {a : AttributeId} (h : R.Intact s t) (hn : ¬R.nodes n)
    (ha : ¬R.records (.inl a)) : R.Intact s (t.setAttribute n a) := by
  unfold Store.setAttribute
  simp only
  split
  next => exact h
  next =>
    split
    next => exact h.addClasses hn _
    next =>
      refine h.modifyData hn (Data.forall_mem_records (fun b hb => ?_) fun _ hr => Or.inl hr)
      rcases Keyed.mem_values_insert hb with rfl | hb
      · exact Or.inr ha
      · exact Or.inl hb

theorem setRepetition {repetition : Option RepetitionId} (h : R.Intact s t) (hn : ¬R.nodes n)
    (hr : ∀ r ∈ repetition, ¬R.records (.inr r)) :
    R.Intact s ((Edit.setRepetition n repetition).apply t) := by
  simp only [Edit.apply]
  exact h.modifyData hn (Data.forall_mem_records (fun _ ha => Or.inl ha) fun r hheld =>
    Or.inr (hr r (mem_of_mem_held hheld)))

theorem removeAttribute (h : R.Intact s t) (hn : ¬R.nodes n) (name : String) :
    R.Intact s (t.removeAttribute n name) := by
  refine h.modifyData hn ?_
  split
  next => exact fun _ hx => Or.inl hx
  next =>
    exact Data.forall_mem_records (fun _ ha => Or.inl (Keyed.mem_values_erase ha)) fun _ hr =>
      Or.inl hr

theorem clearAttributes (h : R.Intact s t) (hn : ¬R.nodes n) :
    R.Intact s ((Edit.clearAttributes n).apply t) := by
  simp only [Edit.apply]
  exact h.modifyData hn
    (Data.forall_mem_records (fun _ ha => absurd ha List.not_mem_nil) fun _ hr => Or.inl hr)

theorem addNode {name value : Option String} {selfClosing : Bool} {repetition : Option RepetitionId}
    (h : R.Intact s t) (hr : ∀ r ∈ repetition, ¬R.records (.inr r)) :
    R.Intact s ((Edit.addNode name value selfClosing repetition).apply t) := by
  refine h.dress links_addNode extends_addNode.held (fun m hm => ?_) (.of_eq rfl rfl)
    fun m _ x hx => ?_
  · rw [data_addNode, if_neg]
    rintro rfl
    exact t.not_mem_freshNode (h.held _ hm)
  · rw [Store.records, data_addNode] at hx
    split at hx
    next =>
      refine Data.forall_mem_records (P := fun x => ¬R.records x)
        (fun _ ha => absurd ha List.not_mem_nil) (fun r hheld => ?_) x hx
      exact Or.inr (hr r (mem_of_mem_held hheld))
    next => exact Or.inl hx

theorem moves (h : R.Intact s t) (moves : t.Moves t' c dest) (hc : ¬R.nodes c)
    (hdest : ∀ p ∈ dest, ¬R.nodes p) : R.Intact s t' := by
  have retains : t.Retains t' := .of_altersNodes moves.relinked.alters
  have children : ∀ n, R.nodes n → t'.children n = t.children n := fun n hn =>
    moves.others n (fun hp => hc ((h.closed c n hp).mpr hn)) fun hp => hdest n hp hn
  have parents : ∀ n, R.nodes n → (t'.links n).parent = (t.links n).parent := by
    intro n hn
    refine moves.parents n ?_
    rintro rfl
    exact hc hn
  refine ⟨moves.linked, fun n hn => moves.relinked.mem_iff.mpr (h.held n hn),
    fun x hx => retains.holds (h.holds x hx), fun n hn => ?_,
    fun n hn => (moves.relinked.data n).trans (h.data n hn),
    fun a ha => (retains.attributes a (h.holds _ ha)).2.trans (h.attributes a ha),
    fun r hr => (retains.repetitions r (h.holds _ hr)).2.trans (h.repetitions r hr),
    fun m p hp => ?_, fun m hm x hx => ?_⟩
  · refine (h.linked.links_congr moves.linked (parents n hn) (children n hn) fun q hq => ?_).trans
      (h.links n hn)
    exact children q ((h.closed n q hq).mp hn)
  · by_cases hm : m = c
    · subst hm
      have out := hdest p (moves.parent.symm.trans hp)
      exact iff_of_false hc out
    · exact h.closed m p ((moves.parents m hm).symm.trans hp)
  · rw [records_congr (moves.relinked.data m)] at hx
    exact h.apart m hm x hx

theorem writeAttribute {a : AttributeId} {record : Attribute} (h : R.Intact s t)
    (ha : ¬R.records (.inl a)) : R.Intact s ((Edit.writeAttribute a record).apply t) := by
  refine h.rewrite rfl (fun x hx => ?_) (fun b hb => ?_) fun _ _ => rfl
  · cases x with
    | inl b => simpa [Holds, hasAttribute, Edit.apply] using hx
    | inr r => exact hx
  · rw [attributeAt_writeAttribute, if_neg]
    rintro ⟨rfl, _⟩
    exact ha hb

theorem writeRepetition {r : RepetitionId} {record : Repetition} (h : R.Intact s t)
    (hr : ¬R.records (.inr r)) : R.Intact s ((Edit.writeRepetition r record).apply t) := by
  refine h.rewrite rfl (fun x hx => ?_) (fun _ _ => rfl) fun b hb => ?_
  · cases x with
    | inl a => exact hx
    | inr b => simpa [Holds, hasRepetition, Edit.apply] using hx
  · have other : r.index ≠ b.index := by
      intro he
      obtain ⟨i⟩ := r
      cases he
      exact hr hb
    simp [repetitionAt, Edit.apply, other]

/-- An edit outside of the region leaves it intact. -/
theorem apply {e : Edit} (h : R.Intact s t) (ok : e.refusal? t = none) (outside : e.Outside R) :
    R.Intact s (e.apply t) := by
  obtain ⟨nodes, records⟩ := outside
  cases e with
  | addNode name value selfClosing repetition =>
    exact h.addNode fun r hr => records _ (List.mem_map_of_mem (Option.mem_toList.mpr hr))
  | setRepetition n repetition =>
    exact h.setRepetition (nodes n (by simp [Edit.nodes])) fun r hr =>
      records _ (List.mem_map_of_mem (Option.mem_toList.mpr hr))
  | setName n | setValue n | setSelfClosing n | setClasses n =>
    simp only [Edit.apply]
    exact h.modifyData (nodes n (by simp [Edit.nodes])) fun _ hx => Or.inl hx
  | addClass n name => exact h.addClasses (nodes n (by simp [Edit.nodes])) [name]
  | setAttribute n a =>
    exact h.setAttribute (nodes n (by simp [Edit.nodes])) (records _ (by simp [Edit.records]))
  | removeAttribute n name => exact h.removeAttribute (nodes n (by simp [Edit.nodes])) name
  | clearAttributes n => exact h.clearAttributes (nodes n (by simp [Edit.nodes]))
  | append p c =>
    obtain ⟨dest, moves, target⟩ := h.linked.exists_moves_append (by simpa [Edit.refusal?] using ok)
    exact h.moves moves (nodes c (by simp [Edit.nodes])) fun q hq =>
      target q hq ▸ nodes p (by simp [Edit.nodes])
  | insertBefore p c reference =>
    have hp := nodes p (by simp [Edit.nodes])
    have hc := nodes c (by simp [Edit.nodes])
    cases reference with
    | none =>
      obtain ⟨dest, moves, target⟩ :=
        h.linked.exists_moves_append (by simpa [Edit.refusal?] using ok)
      exact h.moves moves hc fun q hq => target q hq ▸ hp
    | some r =>
      by_cases hcr : c = r
      · simp only [Edit.apply, Store.insertBefore, if_pos hcr]
        exact h
      · obtain ⟨dest, moves, target⟩ :=
          h.linked.exists_moves_insertBefore (by simpa [Edit.refusal?] using ok) hcr
        exact h.moves moves hc fun q hq => target q hq ▸ hp
  | detach c =>
    exact h.moves h.linked.moves_detach (nodes c (by simp [Edit.nodes])) fun q hq =>
      absurd hq (Option.not_mem_none q)
  | writeAttribute a record => exact h.writeAttribute (records _ (by simp [Edit.records]))
  | writeRepetition r record => exact h.writeRepetition (records _ (by simp [Edit.records]))
  | addAttribute record => exact h.retain rfl (.addAttribute t record)
  | addRepetition record => exact h.retain rfl (.addRepetition t record)
  | addGuard | enter | leave | report => exact h.retain rfl (.of_eq rfl rfl)

theorem element_eq (h : R.Intact s t) (hn : R.nodes n) (own : ∀ x ∈ s.records n, R.records x) :
    t.element n = s.element n := by
  have hattributes : (s.data n).attributes.values.map t.attributeAt =
      (s.data n).attributes.values.map s.attributeAt :=
    List.map_congr_left fun a ha => h.attributes a (own _ (Data.inl_mem_records.mpr ha))
  have hrepetition : (s.data n).repetition.map t.repetitionAt =
      (s.data n).repetition.map s.repetitionAt :=
    Option.map_congr fun r hr => h.repetitions r (own _ (Data.inr_mem_records.mpr hr))
  simp only [element_eq_shown, shown, h.data n hn, hattributes, hrepetition]

variable (h : R.Intact s t)

include h

end Intact

end Region

end SnippetTree
