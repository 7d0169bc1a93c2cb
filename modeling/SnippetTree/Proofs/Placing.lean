import SnippetTree.Proofs.Detaching

namespace SnippetTree.Store

variable {s : Store} {p c m q : NodeId} {previous next : Option NodeId}
  {before after : List NodeId}

theorem links_place (hp : p ∈ s) (hc : c ∈ s) (heldPrev : ∀ q ∈ previous, q ∈ s)
    (heldNext : ∀ q ∈ next, q ∈ s) :
    (s.place p c previous next).links m =
      { parent := if m = c then some p else (s.links m).parent
        firstChild := if previous = none ∧ m = p then some c else (s.links m).firstChild
        lastChild := if next = none ∧ m = p then some c else (s.links m).lastChild
        nextSibling :=
          if m = c then next else if previous = some m then some c else (s.links m).nextSibling
        previousSibling :=
          if next = some m then some c else if m = c then previous
          else (s.links m).previousSibling } := by
  simp only [place, hp, hc, and_self, ↓reduceIte]
  apply Links.ext
  · simp only [parent_join, links_modifyLinks, hc, and_true]
    split <;> rfl
  · rw [firstChild_join (by simp [hp]), firstChild_join (by simp [hp])]
    simp only [links_modifyLinks, hc, and_true, apply_ite Links.firstChild]
    grind
  · rw [lastChild_join (by simp [hp]), lastChild_join (by simp [hp])]
    simp only [links_modifyLinks, hc, and_true, apply_ite Links.lastChild]
    grind
  · rw [nextSibling_join (by simp [hc]), nextSibling_join (by simpa using heldPrev)]
    simp only [links_modifyLinks, hc, and_true, apply_ite Links.nextSibling]
    grind
  · rw [previousSibling_join (by simpa using heldNext), previousSibling_join (by simp [hc])]
    simp only [links_modifyLinks, hc, and_true, apply_ite Links.previousSibling]
    grind

namespace WellLinked

theorem links_place (h : s.WellLinked) (hp : p ∈ s) (hc : c ∈ s)
    (split : s.children p = before ++ after) :
    (s.place p c before.getLast? after.head?).links m =
      { parent := if m = c then some p else (s.links m).parent
        firstChild := if before = [] ∧ m = p then some c else (s.links m).firstChild
        lastChild := if after = [] ∧ m = p then some c else (s.links m).lastChild
        nextSibling :=
          if m = c then after.head?
          else if before.getLast? = some m then some c else (s.links m).nextSibling
        previousSibling :=
          if after.head? = some m then some c else if m = c then before.getLast?
          else (s.links m).previousSibling } := by
  have held : ∀ q ∈ s.children p, q ∈ s := fun q hq => mem_of_parent (h.mem_children.mp hq)
  rw [split] at held
  have heldPrev : ∀ q ∈ before.getLast?, q ∈ s := fun q hq =>
    held q (List.mem_append_left _ (List.mem_of_getLast? hq))
  have heldNext : ∀ q ∈ after.head?, q ∈ s := fun q hq =>
    held q (List.mem_append_right _ (List.mem_of_head? hq))
  simpa using Store.links_place hp hc heldPrev heldNext

theorem siblings_place (h : s.WellLinked) (hp : p ∈ s) (hc : c ∈ s)
    (alone : (s.links c).parent = none) (split : s.children p = before ++ after) :
    (s.place p c before.getLast? after.head?).Siblings p (before ++ c :: after) := by
  have hs := h.siblings p
  have hout : c ∉ s.children p := by simp [h.mem_children, alone]
  have hlinks := fun d => h.links_place (m := d) hp hc split
  rw [split] at hs hout
  have hcb : c ∉ before := fun hm => hout (by simp [hm])
  have hca : c ∉ after := fun hm => hout (by simp [hm])
  obtain ⟨hb, ha, hne⟩ := List.nodup_append.mp hs.nodup
  refine ⟨?_, ?_, ?_, ?_, ?_⟩
  · rw [hlinks]
    have hf := hs.first
    cases before <;> simp_all
  · rw [hlinks]
    have hl := hs.last
    cases after <;> simp_all [List.getLast?_cons_cons]
  · exact List.nodup_append.mpr ⟨hb, List.nodup_cons.mpr ⟨hca, ha⟩, by grind⟩
  · intro as d bs hd
    rw [hlinks]
    rcases append_eq_append_cons hd with ⟨mid, rfl, hm⟩ | ⟨mid, rfl, rfl⟩
    · cases mid with
      | nil =>
        obtain ⟨rfl, rfl⟩ := List.cons.inj hm
        simp [head?_ne_of_not_mem hca]
      | cons e mid =>
        obtain ⟨rfl, rfl⟩ := List.cons.inj hm
        have hold := hs.placed (before ++ mid) d bs (by simp)
        have hdc : d ≠ c := fun he => hca (by simp [← he])
        have hl : before.getLast? ≠ some d :=
          getLast?_ne_of_not_mem fun hm => hne d hm d (by simp) rfl
        cases mid with
        | nil => simp_all
        | cons e mid =>
          have hed : e ≠ d := fun he => (List.nodup_cons.mp ha).1 (by simp [he])
          simp_all [List.getLast?_cons_cons]
    · have hold := hs.placed as d (mid ++ after) (by simp)
      have hdc : d ≠ c := fun he => hcb (by simp [← he])
      have hf : after.head? ≠ some d :=
        head?_ne_of_not_mem fun hm => hne d (by simp) d hm rfl
      cases mid with
      | nil => simp_all
      | cons e mid =>
        have hl : (e :: mid).getLast? ≠ some d := getLast?_ne_of_not_mem
          (List.nodup_cons.mp (List.nodup_append.mp hb).2.1).1
        simp_all [List.getLast?_cons_cons]
  · intro d hd
    rw [hlinks] at hd
    by_cases hdc : d = c
    · simp [hdc]
    · have hm := hs.complete d (by simpa [hdc] using hd)
      simp_all

theorem siblings_place_other (h : s.WellLinked) (hp : p ∈ s) (hc : c ∈ s)
    (alone : (s.links c).parent = none) (split : s.children p = before ++ after) (hq : q ≠ p) :
    (s.place p c before.getLast? after.head?).Siblings q (s.children q) := by
  have hlinks := fun d => h.links_place (m := d) hp hc split
  refine (h.siblings q).congr (by simp [hlinks, hq]) (by simp [hlinks, hq]) ?_ ?_
  · intro d hd
    have hdp : (s.links d).parent = some q := h.mem_children.mp hd
    have hdc : d ≠ c := fun he => by simp [← he, hdp] at alone
    have hout : d ∉ s.children p := fun hm =>
      hq (Option.some.inj (hdp.symm.trans (h.mem_children.mp hm)))
    rw [split] at hout
    have hl : before.getLast? ≠ some d := getLast?_ne_of_not_mem fun hm => hout (by simp [hm])
    have hf : after.head? ≠ some d := head?_ne_of_not_mem fun hm => hout (by simp [hm])
    simp [hlinks, hdc, hl, hf]
  · intro d hd
    rw [hlinks] at hd
    by_cases hdc : d = c
    · exact absurd (by simpa [hdc] using hd) hq.symm
    · simpa [hdc] using hd

theorem children_place (h : s.WellLinked) (hp : p ∈ s) (hc : c ∈ s)
    (alone : (s.links c).parent = none) (split : s.children p = before ++ after) :
    (s.place p c before.getLast? after.head?).children q =
      if q = p then before ++ c :: after else s.children q := by
  split
  next hq => exact hq ▸ (h.siblings_place hp hc alone split).children_eq
  next hq => exact (h.siblings_place_other hp hc alone split hq).children_eq

end WellLinked

theorem above_of_new_parent {s' : Store}
    (links : ∀ m, (s'.links m).parent = if m = c then some p else (s.links m).parent)
    {a b : NodeId} (ha : s'.Above a b) :
    s.Above a b ∨ (a = p ∨ s.Above a p) ∧ (b = c ∨ s.Above c b) := by
  induction ha with
  | @single b hb =>
    rw [links] at hb
    split at hb
    next hbc => exact Or.inr ⟨Or.inl (Option.some.inj hb).symm, Or.inl hbc⟩
    next => exact Or.inl (.single hb)
  | @tail b d _ hd ih =>
    rw [links] at hd
    split at hd
    next hdc =>
      obtain rfl := Option.some.inj hd
      refine Or.inr ⟨?_, Or.inl hdc⟩
      rcases ih with ih | ih
      · exact Or.inr ih
      · exact ih.1
    next =>
      rcases ih with ih | ⟨ha, hb⟩
      · exact Or.inl (ih.tail hd)
      · refine Or.inr ⟨ha, Or.inr ?_⟩
        rcases hb with rfl | hb
        · exact .single hd
        · exact hb.tail hd

namespace WellLinked

theorem place (h : s.WellLinked) (hp : p ∈ s) (hc : c ∈ s)
    (alone : (s.links c).parent = none) (hpc : p ≠ c) (below : ¬s.Above c p)
    (split : s.children p = before ++ after) :
    (s.place p c before.getLast? after.head?).WellLinked := by
  have hlinks := fun d => h.links_place (m := d) hp hc split
  refine ⟨fun q => ?_, fun m hm => ?_, fun n hn => ?_⟩
  · have hs : ∃ cs, (s.place p c before.getLast? after.head?).Siblings q cs := by
      by_cases hq : q = p
      · subst hq
        exact ⟨_, h.siblings_place hp hc alone split⟩
      · exact ⟨_, h.siblings_place_other hp hc alone split hq⟩
    obtain ⟨cs, hs⟩ := hs
    rwa [hs.children_eq]
  · have hmc : m ≠ c := by
      rintro rfl
      simp [hlinks] at hm
    have hmp : (s.links m).parent = none := by simpa [hlinks, hmc] using hm
    have hout : m ∉ s.children p := by simp [h.mem_children, hmp]
    rw [split] at hout
    have hl : before.getLast? ≠ some m := getLast?_ne_of_not_mem fun he => hout (by simp [he])
    have hf : after.head? ≠ some m := head?_ne_of_not_mem fun he => hout (by simp [he])
    simpa [hlinks, hmc, hl, hf] using h.alone m hmp
  · have hparent : ∀ m, ((s.place p c before.getLast? after.head?).links m).parent =
        if m = c then some p else (s.links m).parent := fun m => by rw [hlinks]
    rcases above_of_new_parent hparent hn with ha | ⟨ha, hb⟩
    · exact h.acyclic n ha
    · rcases ha with rfl | ha <;> rcases hb with rfl | hb
      · exact hpc rfl
      · exact below hb
      · exact below ha
      · exact below (hb.trans ha)

end WellLinked

theorem cycle?_eq_none_iff (h : s.WellLinked) :
    s.cycle? p c = none ↔ c ≠ p ∧ ¬s.Above c p := by
  simp [cycle?, h.mem_lineage]

theorem misplaced?_eq_none {r : NodeId} (ok : s.misplaced? p c r = none) :
    (s.links r).parent = some p ∧ (c = r ∨ s.cycle? p c = none) := by
  unfold misplaced? at ok
  split at ok
  next => simp at ok
  next hr =>
    refine ⟨by simpa using hr, ?_⟩
    split at ok
    next hcr => exact Or.inl hcr
    next => exact Or.inr ok

theorem place_of_not_mem (out : ¬(p ∈ s ∧ c ∈ s)) : s.place p c previous next = s := by
  simp only [place, if_neg out]

namespace WellLinked

theorem append_eq_place (h : s.WellLinked) :
    s.append p c =
      (s.detach c).place p c ((s.detach c).children p).getLast? ([] : List NodeId).head? := by
  rw [← (h.detach.siblings p).last]
  rfl

theorem append (h : s.WellLinked) (ok : s.cycle? p c = none) : (s.append p c).WellLinked := by
  obtain ⟨hcp, below⟩ := (cycle?_eq_none_iff h).mp ok
  rw [h.append_eq_place]
  by_cases held : p ∈ s ∧ c ∈ s
  · exact h.detach.place (by simpa using held.1) (by simpa using held.2) (by simp [parent_detach])
      hcp.symm (fun ha => below (above_of_above_detach ha)) (List.append_nil _).symm
  · rw [place_of_not_mem (by simpa using held)]
    exact h.detach

theorem children_append (h : s.WellLinked) (hp : p ∈ s) (hc : c ∈ s) :
    (s.append p c).children q =
      if q = p then (s.children q).erase c ++ [c] else (s.children q).erase c := by
  rw [h.append_eq_place, h.detach.children_place (by simpa using hp) (by simpa using hc)
    (by simp [parent_detach]) (List.append_nil _).symm]
  simp only [h.children_detach]
  split
  next hq => rw [hq]
  next => rfl

theorem insertBefore_eq_place {r : NodeId} (h : s.WellLinked) (hcr : c ≠ r)
    (split : (s.children p).erase c = before ++ r :: after) :
    s.insertBefore p c r = (s.detach c).place p c before.getLast? (r :: after).head? := by
  have hs := (h.detach (c := c)).siblings p
  rw [h.children_detach, split] at hs
  simp only [Store.insertBefore, if_neg hcr]
  rw [(hs.placed before r after rfl).2.1]
  rfl

theorem children_insertBefore {r : NodeId} (h : s.WellLinked) (hc : c ∈ s) (hcr : c ≠ r)
    (split : (s.children p).erase c = before ++ r :: after) :
    (s.insertBefore p c r).children q =
      if q = p then before ++ c :: r :: after else (s.children q).erase c := by
  have hm : r ∈ (s.children p).erase c := by simp [split]
  have hr : r ∈ s.children p := List.mem_of_mem_erase hm
  have hp : p ∈ s := h.parent_mem (h.mem_children.mp hr)
  rw [h.insertBefore_eq_place hcr split, h.detach.children_place (by simpa using hp)
    (by simpa using hc) (by simp [parent_detach]) (h.children_detach.trans split),
    h.children_detach]

theorem insertBefore {r : NodeId} (h : s.WellLinked) (ok : s.misplaced? p c r = none) :
    (s.insertBefore p c r).WellLinked := by
  obtain ⟨hr, hcase⟩ := misplaced?_eq_none ok
  by_cases hcr : c = r
  · rwa [Store.insertBefore, if_pos hcr]
  · obtain ⟨hcp, below⟩ := (cycle?_eq_none_iff h).mp (hcase.resolve_left hcr)
    have hm : r ∈ (s.children p).erase c :=
      (List.mem_erase_of_ne (Ne.symm hcr)).mpr (h.mem_children.mpr hr)
    obtain ⟨before, after, split⟩ := List.append_of_mem hm
    rw [h.insertBefore_eq_place hcr split]
    by_cases held : p ∈ s ∧ c ∈ s
    · exact h.detach.place (by simpa using held.1) (by simpa using held.2)
        (by simp [parent_detach]) hcp.symm (fun ha => below (above_of_above_detach ha))
        (h.children_detach.trans split)
    · rw [place_of_not_mem (by simpa using held)]
      exact h.detach

end WellLinked

end SnippetTree.Store
