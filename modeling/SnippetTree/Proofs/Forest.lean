import SnippetTree.Outline

namespace SnippetTree.Outline

variable {α β : Type}

/-- Forests may be proved things of by the first tree's children and the remaining trees. -/
@[elab_as_elim]
theorem forest_induction {motive : List (Outline α) → Prop} (nil : motive [])
    (cons : ∀ a cs ts, motive cs → motive ts → motive (.node a cs :: ts)) :
    ∀ ts, motive ts
  | [] => nil
  | .node a cs :: ts => cons a cs ts (forest_induction nil cons cs) (forest_induction nil cons ts)

@[simp] theorem label_node (a : α) (cs : List (Outline α)) : (node a cs).label = a := rfl

@[simp] theorem map_node (f : α → β) (a : α) (cs : List (Outline α)) :
    (node a cs).map f = node (f a) (cs.map (map f)) := by
  rw [map, mapAll_eq]

@[simp] theorem node_label_children (t : Outline α) : node t.label t.children = t := by
  cases t
  rfl

def labels (ts : List (Outline α)) : List α := ts.flatMap preorder

@[simp] theorem labels_nil : labels ([] : List (Outline α)) = [] := rfl

theorem labels_append (ts us : List (Outline α)) : labels (ts ++ us) = labels ts ++ labels us :=
  List.flatMap_append

theorem map_snd_rowsAll (depth : Nat) (ts : List (Outline α)) :
    (rowsAll depth ts).map Prod.snd = labels ts := by
  induction ts using forest_induction generalizing depth with
  | nil => rfl
  | cons a cs ts ihc iht =>
    have ht : (rowsAll depth ts).map Prod.snd = labels ts := iht depth
    have hc : preorder (node a cs) = a :: labels cs := by
      rw [preorder, rows, List.map_cons, ihc]
    simp only [rowsAll, rows, List.cons_append, List.map_cons, List.map_append, ihc, ht]
    simp only [labels, List.flatMap_cons] at hc ⊢
    rw [hc]
    rfl

theorem preorder_node (a : α) (cs : List (Outline α)) : (node a cs).preorder = a :: labels cs := by
  rw [preorder, rows, List.map_cons, map_snd_rowsAll]

@[simp] theorem labels_cons (a : α) (cs ts : List (Outline α)) :
    labels (node a cs :: ts) = a :: (labels cs ++ labels ts) := by
  rw [labels, List.flatMap_cons, preorder_node]
  rfl

theorem labels_map (f : α → β) (ts : List (Outline α)) :
    labels (ts.map (map f)) = (labels ts).map f := by
  induction ts using forest_induction with
  | nil => rfl
  | cons a cs ts ihc iht => simp [ihc, iht]

theorem map_map_forest {γ : Type} (f : α → β) (g : β → γ) (ts : List (Outline α)) :
    (ts.map (map f)).map (map g) = ts.map (map fun a => g (f a)) := by
  induction ts using forest_induction with
  | nil => rfl
  | cons a cs ts ihc iht =>
    simp only [List.map_cons, map_node]
    rw [ihc, iht]

/-- The forest `ts` with `us` below its last leaf; where `ts` is empty, `us` takes its place. -/
def graft : List (Outline α) → List (Outline α) → List (Outline α)
  | [], us => us
  | [node a cs], us => [node a (graft cs us)]
  | t :: t' :: ts, us => t :: graft (t' :: ts) us

theorem labels_graft (ts us : List (Outline α)) : labels (graft ts us) = labels ts ++ labels us := by
  fun_induction graft ts us with
  | case1 us => rfl
  | case2 a cs us ih => simp [ih]
  | case3 t t' ts us ih =>
    obtain ⟨a, cs⟩ := t
    simp only [labels_cons, ih, List.cons_append, List.append_assoc]

theorem map_graft (f : α → β) (ts us : List (Outline α)) :
    (graft ts us).map (map f) = graft (ts.map (map f)) (us.map (map f)) := by
  fun_induction graft ts us with
  | case1 us => simp [graft]
  | case2 a cs us ih => simp [graft, ih]
  | case3 t t' ts us ih =>
    rw [List.map_cons, ih]
    simp [graft]

/-- The outline with another label at its top. -/
def relabel (f : α → α) : Outline α → Outline α
  | node a cs => node (f a) cs

mutual

/-- The outline without the labels that are not kept: what is below such a label takes its place. -/
def contractTree (keep : α → Bool) : Outline α → List (Outline α)
  | node a cs => if keep a then [node a (contract keep cs)] else contract keep cs

def contract (keep : α → Bool) : List (Outline α) → List (Outline α)
  | [] => []
  | t :: ts => contractTree keep t ++ contract keep ts

end

section Contract

variable {keep keep' : α → Bool} {a b : α} {cs ts us : List (Outline α)}

@[simp] theorem contract_nil : contract keep [] = [] := rfl

theorem contract_cons_of_pos (h : keep a = true) :
    contract keep (node a cs :: ts) = node a (contract keep cs) :: contract keep ts := by
  rw [contract, contractTree, if_pos h, List.singleton_append]

theorem contract_cons_of_neg (h : ¬keep a = true) :
    contract keep (node a cs :: ts) = contract keep cs ++ contract keep ts := by
  rw [contract, contractTree, if_neg h]

theorem contract_append (ts us : List (Outline α)) :
    contract keep (ts ++ us) = contract keep ts ++ contract keep us := by
  induction ts with
  | nil => rfl
  | cons t ts ih => rw [List.cons_append, contract, contract, ih, List.append_assoc]

theorem labels_contract (ts : List (Outline α)) :
    labels (contract keep ts) = (labels ts).filter keep := by
  induction ts using forest_induction with
  | nil => rfl
  | cons a cs ts ihc iht =>
    rw [labels_cons]
    by_cases h : keep a = true
    · rw [contract_cons_of_pos h, labels_cons, List.filter_cons_of_pos h, List.filter_append, ihc, iht]
    · rw [contract_cons_of_neg h, labels_append, List.filter_cons_of_neg h, List.filter_append, ihc,
        iht]

theorem contract_eq_nil (h : ∀ a ∈ labels ts, ¬keep a = true) : contract keep ts = [] := by
  have hlabels : labels (contract keep ts) = [] := by
    rw [labels_contract]
    exact List.filter_eq_nil_iff.mpr h
  match hc : contract keep ts with
  | [] => rfl
  | node a cs :: us => simp [hc] at hlabels

theorem contract_congr (h : ∀ a ∈ labels ts, keep a = keep' a) :
    contract keep ts = contract keep' ts := by
  induction ts using forest_induction with
  | nil => rfl
  | cons a cs ts ihc iht =>
    rw [contract, contract, contractTree, contractTree, h a (by simp),
      ihc fun b hb => h b (by simp [hb]), iht fun b hb => h b (by simp [hb])]

theorem contract_map (f : β → α) (ts : List (Outline β)) :
    contract keep (ts.map (map f)) = (contract (fun b => keep (f b)) ts).map (map f) := by
  induction ts using forest_induction with
  | nil => rfl
  | cons b cs ts ihc iht =>
    rw [List.map_cons, map_node]
    by_cases h : keep (f b) = true
    · rw [contract_cons_of_pos h, contract, contractTree, if_pos h, ihc, iht, List.singleton_append,
        List.map_cons, map_node]
    · rw [contract_cons_of_neg h, contract, contractTree, if_neg h, ihc, iht, List.map_append]

theorem contract_graft (h : ∀ a ∈ labels ts, ¬keep a = true) :
    contract keep (graft ts us) = contract keep us := by
  fun_induction graft ts us with
  | case1 us => rfl
  | case2 a cs us ih =>
    rw [contract_cons_of_neg (h a (by simp)), ih fun b hb => h b (by simp [hb]), contract_nil,
      List.append_nil]
  | case3 t t' ts us ih =>
    obtain ⟨a, cs⟩ := t
    have hcs : contract keep cs = [] := contract_eq_nil fun b hb => h b (by simp [hb])
    rw [contract_cons_of_neg (h a (by simp)), hcs, List.nil_append]
    exact ih fun b hb => h b (by
      rw [labels_cons]
      exact List.mem_cons_of_mem _ (List.mem_append_right _ hb))

/-- In the forest, the first label is above the second one. -/
inductive Over : List (Outline α) → α → α → Prop
  | top {a b : α} {cs ts : List (Outline α)} (below : b ∈ labels cs) : Over (node a cs :: ts) a b
  | inside {a b c : α} {cs ts : List (Outline α)} (h : Over cs a b) : Over (node c cs :: ts) a b
  | beside {a b : α} {t : Outline α} {ts : List (Outline α)} (h : Over ts a b) : Over (t :: ts) a b

theorem over_cons_iff {c : α} :
    Over (node c cs :: ts) a b ↔ (c = a ∧ b ∈ labels cs) ∨ Over cs a b ∨ Over ts a b := by
  constructor
  · rintro (h | h | h)
    · exact Or.inl ⟨rfl, h⟩
    · exact Or.inr (Or.inl h)
    · exact Or.inr (Or.inr h)
  · rintro (⟨rfl, h⟩ | h | h)
    · exact .top h
    · exact .inside h
    · exact .beside h

theorem not_over_nil : ¬Over [] a b := by
  rintro ⟨⟩

theorem over_append_iff : Over (ts ++ us) a b ↔ Over ts a b ∨ Over us a b := by
  induction ts with
  | nil => simp [not_over_nil]
  | cons t ts ih =>
    obtain ⟨c, cs⟩ := t
    rw [List.cons_append, over_cons_iff, over_cons_iff, ih]
    simp only [or_assoc]

theorem over_contract_iff (ha : keep a = true) (hb : keep b = true) :
    Over (contract keep ts) a b ↔ Over ts a b := by
  induction ts using forest_induction with
  | nil => rfl
  | cons c cs ts ihc iht =>
    rw [over_cons_iff]
    by_cases h : keep c = true
    · rw [contract_cons_of_pos h, over_cons_iff, labels_contract, List.mem_filter, ihc, iht]
      simp only [hb, and_true]
    · have hne : c ≠ a := fun he => h (he ▸ ha)
      rw [contract_cons_of_neg h, over_append_iff, ihc, iht]
      simp only [hne, false_and, false_or]

end Contract

end SnippetTree.Outline
