import SnippetTree.Proofs.WellLinked
import SnippetTree.Store.Edit

namespace SnippetTree.Store

variable {s : Store} {p c m : NodeId} {previous next : Option NodeId}

@[simp] theorem mem_modifyLinks {n : NodeId} {f : Links → Links} :
    m ∈ s.modifyLinks n f ↔ m ∈ s := mem_modifyNode

@[simp] theorem mem_join : m ∈ s.join p previous next ↔ m ∈ s := by
  cases previous <;> cases next <;> simp [join]

@[simp] theorem parent_join : ((s.join p previous next).links m).parent = (s.links m).parent := by
  cases previous <;> cases next <;> simp [join, links_modifyLinks] <;> grind

theorem nextSibling_join (held : ∀ q ∈ previous, q ∈ s) :
    ((s.join p previous next).links m).nextSibling =
      if previous = some m then next else (s.links m).nextSibling := by
  cases previous <;> cases next <;> simp [join, links_modifyLinks, apply_ite Links.nextSibling] <;> grind

theorem previousSibling_join (held : ∀ q ∈ next, q ∈ s) :
    ((s.join p previous next).links m).previousSibling =
      if next = some m then previous else (s.links m).previousSibling := by
  cases previous <;> cases next <;> simp [join, links_modifyLinks, apply_ite Links.previousSibling] <;> grind

theorem firstChild_join (hp : p ∈ s) :
    ((s.join p previous next).links m).firstChild =
      if previous = none ∧ m = p then next else (s.links m).firstChild := by
  cases previous <;> cases next <;> simp [join, links_modifyLinks, apply_ite Links.firstChild] <;> grind

theorem lastChild_join (hp : p ∈ s) :
    ((s.join p previous next).links m).lastChild =
      if next = none ∧ m = p then previous else (s.links m).lastChild := by
  cases previous <;> cases next <;> simp [join, links_modifyLinks, apply_ite Links.lastChild] <;> grind
variable {q : NodeId} {before after : List NodeId}

theorem Links.ext {l l' : Links} (parent : l.parent = l'.parent)
    (first : l.firstChild = l'.firstChild) (last : l.lastChild = l'.lastChild)
    (next : l.nextSibling = l'.nextSibling)
    (previous : l.previousSibling = l'.previousSibling) : l = l' := by
  cases l
  cases l'
  simp_all

theorem detach_of_parent (hp : (s.links c).parent = some p) :
    s.detach c = (s.join p (s.links c).previousSibling (s.links c).nextSibling).modifyLinks c
      ({ · with parent := none, nextSibling := none, previousSibling := none }) := by
  simp only [detach, hp]

theorem detach_of_parent_eq_none (hp : (s.links c).parent = none) : s.detach c = s := by
  simp only [detach, hp]

@[simp] theorem mem_detach : m ∈ s.detach c ↔ m ∈ s := by
  cases hp : (s.links c).parent with
  | none => rw [detach_of_parent_eq_none hp]
  | some p => simp [detach_of_parent hp]

theorem parent_detach :
    ((s.detach c).links m).parent = if m = c then none else (s.links m).parent := by
  cases hp : (s.links c).parent with
  | none =>
    rw [detach_of_parent_eq_none hp]
    split
    next hm => rw [hm, hp]
    next => rfl
  | some p =>
    simp only [detach_of_parent hp, links_modifyLinks, mem_join, mem_of_parent hp, and_true]
    split <;> simp

namespace WellLinked

theorem neighbours_mem (h : s.WellLinked) (split : s.children p = before ++ c :: after) :
    (∀ q ∈ (s.links c).previousSibling, q ∈ s) ∧ ∀ q ∈ (s.links c).nextSibling, q ∈ s := by
  obtain ⟨_, hprev, hnext⟩ := (h.siblings p).placed before c after split
  have held : ∀ q ∈ s.children p, q ∈ s := fun q hq => mem_of_parent (h.mem_children.mp hq)
  rw [hprev, hnext]
  refine ⟨fun q hq => held q ?_, fun q hq => held q ?_⟩
  · rw [split]
    exact List.mem_append_left _ (List.mem_of_getLast? hq)
  · rw [split]
    exact List.mem_append_right _ (List.mem_cons_of_mem _ (List.mem_of_head? hq))

theorem links_detach (h : s.WellLinked) (split : s.children p = before ++ c :: after)
    (hm : m ≠ c) :
    (s.detach c).links m =
      { s.links m with
        firstChild := if before = [] ∧ m = p then after.head? else (s.links m).firstChild
        lastChild := if after = [] ∧ m = p then before.getLast? else (s.links m).lastChild
        nextSibling := if before.getLast? = some m then after.head? else (s.links m).nextSibling
        previousSibling :=
          if after.head? = some m then before.getLast? else (s.links m).previousSibling } := by
  obtain ⟨hparent, hprev, hnext⟩ := (h.siblings p).placed before c after split
  obtain ⟨heldPrev, heldNext⟩ := h.neighbours_mem split
  have hp := h.parent_mem hparent
  rw [detach_of_parent hparent, links_modifyLinks, if_neg fun he => hm he.1]
  rw [hprev] at heldPrev ⊢
  rw [hnext] at heldNext ⊢
  apply Links.ext
  · simp
  · simp [firstChild_join hp]
  · simp [lastChild_join hp]
  · simp [nextSibling_join heldPrev]
  · simp [previousSibling_join heldNext]

end WellLinked

theorem append_eq_append_cons {d : NodeId} {as bs : List NodeId}
    (h : before ++ after = as ++ d :: bs) :
    (∃ mid, as = before ++ mid ∧ after = mid ++ d :: bs) ∨
      ∃ mid, before = as ++ d :: mid ∧ bs = mid ++ after := by
  rcases List.append_eq_append_iff.mp h with ⟨mid, hb, ha⟩ | ⟨mid, hb, ha⟩
  · exact Or.inl ⟨mid, hb, ha⟩
  · cases mid with
    | nil => exact Or.inl ⟨[], by simpa using hb.symm, by simpa using ha.symm⟩
    | cons e mid =>
      obtain ⟨rfl, rfl⟩ := List.cons.inj ha
      exact Or.inr ⟨mid, hb, rfl⟩

theorem head?_ne_of_not_mem {xs : List NodeId} (h : m ∉ xs) : xs.head? ≠ some m :=
  fun he => h (List.mem_of_head? he)

theorem getLast?_ne_of_not_mem {xs : List NodeId} (h : m ∉ xs) : xs.getLast? ≠ some m :=
  fun he => h (List.mem_of_getLast? he)

namespace WellLinked

theorem siblings_detach (h : s.WellLinked) (split : s.children p = before ++ c :: after) :
    (s.detach c).Siblings p (before ++ after) := by
  have hs := h.siblings p
  rw [split] at hs
  have hc : (s.links c).parent = some p := hs.parent (by simp)
  have hpc : p ≠ c := fun he => h.acyclic c (.single (by rw [hc, he]))
  have hlinks := fun d (hd : d ≠ c) => h.links_detach split hd
  obtain ⟨hb, ha, hne⟩ := List.nodup_append.mp hs.nodup
  obtain ⟨hca, ha⟩ := List.nodup_cons.mp ha
  have hcb : c ∉ before := fun hm => hne c hm c (by simp) rfl
  refine ⟨?_, ?_, ?_, ?_, ?_⟩
  · rw [hlinks p hpc]
    have hf := hs.first
    cases before <;> simp_all
  · rw [hlinks p hpc]
    have hl := hs.last
    cases after <;> simp_all [List.getLast?_cons_cons]
  · exact hs.nodup.sublist (by simp)
  · intro as d bs hd
    rcases append_eq_append_cons hd with ⟨mid, rfl, rfl⟩ | ⟨mid, rfl, rfl⟩
    · have hold := hs.placed (before ++ c :: mid) d bs (by simp)
      have hl : before.getLast? ≠ some d :=
        getLast?_ne_of_not_mem fun hm => hne d hm d (by simp) rfl
      rw [hlinks d fun he => hca (by simp [← he])]
      cases mid with
      | nil => simp_all
      | cons e mid =>
        have hed : e ≠ d := fun he => (List.nodup_cons.mp ha).1 (by simp [he])
        simp_all [List.getLast?_cons_cons]
    · have hold := hs.placed as d (mid ++ c :: after) (by simp)
      have hf : after.head? ≠ some d :=
        head?_ne_of_not_mem fun hm => hne d (by simp) d (by simp [hm]) rfl
      rw [hlinks d fun he => hcb (by simp [← he])]
      cases mid with
      | nil => simp_all
      | cons e mid =>
        have hl : (e :: mid).getLast? ≠ some d := getLast?_ne_of_not_mem
          (List.nodup_cons.mp (List.nodup_append.mp hb).2.1).1
        simp_all [List.getLast?_cons_cons]
  · intro d hd
    rw [parent_detach] at hd
    split at hd
    next => simp at hd
    next hdc =>
      have hm := hs.complete d hd
      simp_all

theorem links_detach_self (h : s.WellLinked) (split : s.children p = before ++ c :: after) :
    (s.detach c).links c =
      { s.links c with parent := none, nextSibling := none, previousSibling := none } := by
  obtain ⟨hparent, hprev, hnext⟩ := (h.siblings p).placed before c after split
  have hp := h.parent_mem hparent
  have hcp : c ≠ p := fun he => h.acyclic c (.single (by rw [hparent, he]))
  have hc : c ∈ s.join p (s.links c).previousSibling (s.links c).nextSibling :=
    mem_join.mpr (mem_of_parent hparent)
  rw [detach_of_parent hparent, links_modifyLinks, if_pos ⟨rfl, hc⟩]
  apply Links.ext
  · rfl
  · simp [firstChild_join hp, hcp]
  · simp [lastChild_join hp, hcp]
  · rfl
  · rfl

end WellLinked

theorem Siblings.congr {s' : Store} {cs : List NodeId} (h : s.Siblings q cs)
    (first : (s'.links q).firstChild = (s.links q).firstChild)
    (last : (s'.links q).lastChild = (s.links q).lastChild)
    (placed : ∀ d ∈ cs, (s'.links d).parent = (s.links d).parent ∧
      (s'.links d).previousSibling = (s.links d).previousSibling ∧
      (s'.links d).nextSibling = (s.links d).nextSibling)
    (complete : ∀ d, (s'.links d).parent = some q → (s.links d).parent = some q) :
    s'.Siblings q cs := by
  refine ⟨first.trans h.first, last.trans h.last, h.nodup, ?_, fun d hd => h.complete d (complete d hd)⟩
  rintro as d bs rfl
  obtain ⟨hp, hl, hn⟩ := placed d (by simp)
  rw [hp, hl, hn]
  exact h.placed as d bs rfl

namespace WellLinked

theorem siblings_detach_other (h : s.WellLinked) (split : s.children p = before ++ c :: after)
    (hq : q ≠ p) : (s.detach c).Siblings q (s.children q) := by
  have hc : (s.links c).parent = some p := h.mem_children.mp (by simp [split])
  have hends : ((s.detach c).links q).firstChild = (s.links q).firstChild ∧
      ((s.detach c).links q).lastChild = (s.links q).lastChild := by
    by_cases hqc : q = c
    · subst hqc
      rw [h.links_detach_self split]
      exact ⟨rfl, rfl⟩
    · rw [h.links_detach split hqc]
      simp [hq]
  refine (h.siblings q).congr hends.1 hends.2 ?_ ?_
  · intro d hd
    have hdp : (s.links d).parent = some q := h.mem_children.mp hd
    have hout : d ∉ s.children p := fun hm =>
      hq (Option.some.inj (hdp.symm.trans (h.mem_children.mp hm)))
    rw [split] at hout
    have hl : before.getLast? ≠ some d := getLast?_ne_of_not_mem fun hm => hout (by simp [hm])
    have hf : after.head? ≠ some d := head?_ne_of_not_mem fun hm => hout (by simp [hm])
    rw [h.links_detach split fun he => hout (by simp [he])]
    simp [hl, hf]
  · intro d hd
    rw [parent_detach] at hd
    split at hd
    next => simp at hd
    next => exact hd

theorem split_of_parent (h : s.WellLinked) (hp : (s.links c).parent = some p) :
    ∃ before after, s.children p = before ++ c :: after :=
  List.append_of_mem (h.mem_children.mpr hp)

theorem children_detach (h : s.WellLinked) : (s.detach c).children q = (s.children q).erase c := by
  cases hp : (s.links c).parent with
  | none =>
    rw [detach_of_parent_eq_none hp, List.erase_of_not_mem]
    simp [h.mem_children, hp]
  | some p =>
    obtain ⟨before, after, split⟩ := h.split_of_parent hp
    by_cases hq : q = p
    · subst hq
      have hnd := (h.siblings q).nodup
      rw [split] at hnd
      have hcb : c ∉ before := fun hm => (List.nodup_append.mp hnd).2.2 c hm c (by simp) rfl
      rw [(h.siblings_detach split).children_eq, split, List.erase_append_right _ hcb,
        List.erase_cons_head]
    · rw [(h.siblings_detach_other split hq).children_eq, List.erase_of_not_mem]
      rw [h.mem_children, hp]
      exact fun he => hq (Option.some.inj he).symm

theorem above_of_above_detach {a b : NodeId} (ha : (s.detach c).Above a b) : s.Above a b := by
  refine Relation.TransGen.mono (fun a b hb => ?_) _ _ ha
  rw [parent_detach] at hb
  split at hb
  next => simp at hb
  next => exact hb

theorem detach (h : s.WellLinked) : (s.detach c).WellLinked := by
  cases hp : (s.links c).parent with
  | none => rwa [detach_of_parent_eq_none hp]
  | some p =>
    obtain ⟨before, after, split⟩ := h.split_of_parent hp
    refine ⟨fun q => ?_, fun m hm => ?_, fun n hn => h.acyclic n (above_of_above_detach hn)⟩
    · have hs : ∃ cs, (s.detach c).Siblings q cs := by
        by_cases hq : q = p
        · exact ⟨_, hq ▸ h.siblings_detach split⟩
        · exact ⟨_, h.siblings_detach_other split hq⟩
      obtain ⟨cs, hs⟩ := hs
      rwa [hs.children_eq]
    · by_cases hmc : m = c
      · subst hmc
        rw [h.links_detach_self split]
        exact ⟨rfl, rfl⟩
      · rw [parent_detach, if_neg hmc] at hm
        have hout : m ∉ s.children p := by simp [h.mem_children, hm]
        rw [split] at hout
        have hl : before.getLast? ≠ some m := getLast?_ne_of_not_mem fun he => hout (by simp [he])
        have hf : after.head? ≠ some m := head?_ne_of_not_mem fun he => hout (by simp [he])
        rw [h.links_detach split hmc]
        simpa [hl, hf] using h.alone m hm

end WellLinked

end SnippetTree.Store
