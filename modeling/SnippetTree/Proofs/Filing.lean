import SnippetTree.Proofs.Carried
import SnippetTree.Proofs.Promoted

namespace SnippetTree

namespace Keyed

variable {β : Type} {m : Keyed β} {key other : String} {value : β}

theorem mem_keys_insert : other ∈ (m.insert key value).keys ↔ other = key ∨ other ∈ m.keys := by
  rw [keys_insert]
  split
  next h => exact (or_iff_right_of_imp fun he => he ▸ h).symm
  next => simp [or_comm]

theorem mem_values_of_mem_entries {entry : String × β} (h : entry ∈ m.entries) :
    entry.2 ∈ m.values := List.mem_map_of_mem h

end Keyed

namespace Data

variable {d : Data} {record : AttributeId → Attribute} {a : AttributeId}

/-- Each attribute is kept under its own name, and none is kept under the name that lists class
names. -/
structure Filed (d : Data) (record : AttributeId → Attribute) : Prop where
  own : ∀ entry ∈ d.attributes.entries, entry.1 = (record entry.2).name
  noClass : Attribute.className ∉ d.attributes.keys

/-- Attributes are filed, and class names are not empty and all different. -/
structure Tidy (d : Data) (record : AttributeId → Attribute) : Prop extends d.Filed record where
  nodup : d.classes.Nodup
  noBlank : "" ∉ d.classes

instance : Decidable (d.Filed record) :=
  decidable_of_iff ((∀ entry ∈ d.attributes.entries, entry.1 = (record entry.2).name) ∧
    Attribute.className ∉ d.attributes.keys) ⟨fun h => ⟨h.1, h.2⟩, fun h => ⟨h.own, h.noClass⟩⟩

instance : Decidable (d.Tidy record) :=
  decidable_of_iff (d.Filed record ∧ d.classes.Nodup ∧ "" ∉ d.classes)
    ⟨fun h => ⟨h.1, h.2.1, h.2.2⟩, fun h => ⟨h.toFiled, h.nodup, h.noBlank⟩⟩

theorem filed_of_empty (h : d.attributes = ∅) : d.Filed record := by
  constructor <;> rw [h]
  · exact fun _ he => absurd he List.not_mem_nil
  · exact List.not_mem_nil

theorem Filed.insert (h : d.Filed record) (name : (record a).name ≠ Attribute.className) :
    Filed { d with attributes := d.attributes.insert (record a).name a } record where
  own := by
    intro entry he
    rcases Keyed.mem_entries_insert he with rfl | he
    · rfl
    · exact h.own entry he
  noClass := by
    rw [Keyed.mem_keys_insert, not_or]
    exact ⟨Ne.symm name, h.noClass⟩

theorem Filed.erase (h : d.Filed record) (name : String) :
    Filed { d with attributes := d.attributes.erase name } record where
  own := fun entry he => h.own entry (List.mem_of_mem_filter he)
  noClass := by
    rw [Keyed.keys_erase]
    exact fun hm => h.noClass (List.mem_of_mem_filter hm)

theorem Filed.keys_eq (h : d.Filed record) :
    (d.attributes.values.map record).map Attribute.name = d.attributes.keys := by
  rw [Keyed.values, Keyed.keys, List.map_map, List.map_map]
  exact List.map_congr_left fun entry he => (h.own entry he).symm

theorem Filed.congr {record' : AttributeId → Attribute} (h : d.Filed record)
    (names : ∀ a ∈ d.attributes.values, (record' a).name = (record a).name) : d.Filed record' where
  own := fun entry he =>
    (h.own entry he).trans (names entry.2 (Keyed.mem_values_of_mem_entries he)).symm
  noClass := h.noClass

/-- The data with one more class name, if it is new and not empty. -/
def addClass (d : Data) (name : String) : Data :=
  if name = "" ∨ name ∈ d.classes then d else { d with classes := d.classes ++ [name] }

theorem Filed.addClass (h : d.Filed record) (name : String) : (d.addClass name).Filed record := by
  unfold Data.addClass
  split
  next => exact h
  next => exact ⟨h.own, h.noClass⟩

theorem Tidy.addClass (h : d.Tidy record) (name : String) : (d.addClass name).Tidy record := by
  unfold Data.addClass
  split
  next => exact h
  next hnew =>
    rw [not_or] at hnew
    refine ⟨⟨h.own, h.noClass⟩, ?_, ?_⟩
    · exact List.nodup_append.mpr ⟨h.nodup, by simp, fun c hc c' hc' he =>
        hnew.2 (List.mem_singleton.mp hc' ▸ he ▸ hc)⟩
    · simpa using ⟨h.noBlank, hnew.1⟩

end Data

namespace Store

variable {s s' : Store} {n m : NodeId} {a : AttributeId}

/-- The attributes of a node are kept under their own names, and none under the name that lists class
names. -/
def Filed (s : Store) (n : NodeId) : Prop := (s.data n).Filed s.attributeAt

instance : Decidable (s.Filed n) :=
  inferInstanceAs (Decidable ((s.data n).Filed s.attributeAt))

/-- The attributes of a node are filed, and its class names are not empty and all different. -/
def Tidy (s : Store) (n : NodeId) : Prop := (s.data n).Tidy s.attributeAt

instance : Decidable (s.Tidy n) := inferInstanceAs (Decidable ((s.data n).Tidy s.attributeAt))

theorem Filed.wellNamed (h : s.Filed n) : (s.element n).WellNamed := by
  have names : (s.element n).attributes.map Attribute.name = (s.data n).attributes.keys := h.keys_eq
  exact ⟨names ▸ (s.data n).attributes.nodup, names ▸ h.noClass⟩

theorem Tidy.filed (h : s.Tidy n) : s.Filed n := h.toFiled

theorem tidy_empty (n : NodeId) : Tidy {} n := by
  have hdata : data {} n = {} := data_of_not_mem (by simp [mem_iff])
  rw [Tidy, hdata]
  exact ⟨Data.filed_of_empty rfl, .nil, List.not_mem_nil⟩

theorem Tidy.congr (h : s.Tidy n) (data : s'.data n = s.data n)
    (names : ∀ a ∈ (s.data n).attributes.values,
      (s'.attributeAt a).name = (s.attributeAt a).name) : s'.Tidy n := by
  rw [Tidy, data]
  exact ⟨h.toFiled.congr names, h.nodup, h.noBlank⟩

theorem AltersNodes.attributeAt (h : s.AltersNodes s') : s'.attributeAt = s.attributeAt := by
  obtain ⟨nodes, _, rfl⟩ := h
  rfl

theorem attributeAt_setAttribute : (s.setAttribute n a).attributeAt = s.attributeAt :=
  (altersNodes_setAttribute s n a).attributeAt

theorem Tidy.of_altersNodes (h : s.Tidy n) (alters : s.AltersNodes s')
    (data : s'.data n = s.data n) : s'.Tidy n :=
  h.congr data fun a _ => by rw [alters.attributeAt]

section Keeps

variable {K : Data → Prop}

theorem keeps_modifyData {f : Data → Data} (keeps : ∀ d, K d → K (f d)) (h : K (s.data m)) :
    K ((s.modifyData n f).data m) := by
  rw [data_modifyData]
  split
  next hm => exact keeps _ (hm.1 ▸ h)
  next => exact h

theorem keeps_addClasses (classes : ∀ d name, K d → K (d.addClass name)) (h : K (s.data m))
    (names : List String) : K ((names.foldl (·.addClass n) s).data m) := by
  induction names generalizing s with
  | nil => exact h
  | cons name names ih => exact ih (keeps_modifyData (fun d => classes d name) h)

theorem keeps_setAttribute (classes : ∀ d name, K d → K (d.addClass name))
    (attributes : ∀ d, (s.attributeAt a).name ≠ Attribute.className → K d →
      K { d with attributes := d.attributes.insert (s.attributeAt a).name a })
    (h : K (s.data m)) : K ((s.setAttribute n a).data m) := by
  unfold setAttribute
  simp only
  split
  next => exact h
  next =>
    split
    next => exact keeps_addClasses classes h _
    next name => exact keeps_modifyData (fun d => attributes d name) h

end Keeps

theorem Filed.setAttribute (h : s.Filed m) : (s.setAttribute n a).Filed m := by
  rw [Filed, attributeAt_setAttribute]
  exact keeps_setAttribute (K := (·.Filed s.attributeAt)) (fun _ name hd => hd.addClass name)
    (fun _ name hd => hd.insert name) h

theorem Tidy.setAttribute (h : s.Tidy m) : (s.setAttribute n a).Tidy m := by
  rw [Tidy, attributeAt_setAttribute]
  exact keeps_setAttribute (K := (·.Tidy s.attributeAt)) (fun _ name hd => hd.addClass name)
    (fun _ name hd => ⟨hd.toFiled.insert name, hd.nodup, hd.noBlank⟩) h

end Store

/-- The edit writes the class names of a node, or the name of an attribute, directly. -/
def Edit.Overwrites (s : Store) : Edit → Prop
  | setClasses .. => True
  | writeAttribute a record => record.name ≠ (s.attributeAt a).name
  | _ => False

theorem Store.attributeAt_writeAttribute {s : Store} {a b : AttributeId} {record : Attribute} :
    ((Edit.writeAttribute a record).apply s).attributeAt b =
      if b = a ∧ s.hasAttribute a then record else s.attributeAt b := by
  obtain ⟨i⟩ := a
  obtain ⟨j⟩ := b
  simp only [Edit.apply, attributeAt, hasAttribute, AttributeId.mk.injEq,
    Array.getD_eq_getD_getElem?, Array.getElem?_setIfInBounds, decide_eq_true_eq]
  by_cases hji : j = i
  · subst hji
    by_cases hj : j < s.attributes.size <;> simp [hj]
  · simp [hji, Ne.symm hji]

theorem Edit.tidy_apply {s : Store} (grounded : s.Grounded) {n : NodeId} (h : s.Tidy n) {e : Edit}
    (ok : ¬e.Overwrites s) : (e.apply s).Tidy n := by
  cases e with
  | addNode name value selfClosing repetition =>
    rw [Store.Tidy, Store.data_addNode]
    split
    next => exact ⟨Data.filed_of_empty rfl, .nil, List.not_mem_nil⟩
    next => exact h
  | addAttribute record =>
    refine h.congr rfl fun a ha => ?_
    rw [Store.attributeAt_addAttribute, if_neg]
    rintro rfl
    have held := grounded.attributes n _ ha
    simp [Store.hasAttribute, Store.freshAttribute] at held
  | writeAttribute a record =>
    refine h.congr rfl fun b _ => ?_
    rw [Store.attributeAt_writeAttribute]
    split
    next hb => exact (not_not.mp ok).trans (hb.1 ▸ rfl)
    next => rfl
  | setClasses => exact absurd trivial ok
  | setName | setValue | setSelfClosing | setRepetition =>
    exact Store.keeps_modifyData (K := (·.Tidy s.attributeAt))
      (fun _ hd => ⟨⟨hd.own, hd.noClass⟩, hd.nodup, hd.noBlank⟩) h
  | addClass _ name =>
    exact Store.keeps_modifyData (K := (·.Tidy s.attributeAt)) (fun _ hd => hd.addClass name) h
  | setAttribute => exact h.setAttribute
  | removeAttribute _ name =>
    refine Store.keeps_modifyData (K := (·.Tidy s.attributeAt)) (fun d hd => ?_) h
    split
    next => exact ⟨⟨hd.own, hd.noClass⟩, .nil, List.not_mem_nil⟩
    next => exact ⟨hd.toFiled.erase name, hd.nodup, hd.noBlank⟩
  | clearAttributes =>
    exact Store.keeps_modifyData (K := (·.Tidy s.attributeAt))
      (fun _ hd => ⟨Data.filed_of_empty rfl, hd.nodup, hd.noBlank⟩) h
  | append p c => exact h.of_altersNodes (s.altersNodes_append p c) Store.data_append
  | insertBefore p c reference =>
    cases reference with
    | none => exact h.of_altersNodes (s.altersNodes_append p c) Store.data_append
    | some r => exact h.of_altersNodes (s.altersNodes_insertBefore p c r) Store.data_insertBefore
  | detach c => exact h.of_altersNodes (s.altersNodes_detach c) Store.data_detach
  | addRepetition | writeRepetition | addGuard | enter | leave | report =>
    exact h.congr rfl fun _ _ => rfl

namespace Script

variable {σ : Type} {n : NodeId}

theorem leads_replaceAttributes {P : Store → Prop} (n : NodeId) (as : List AttributeId) :
    Leads P (replaceAttributes n as : Script σ Empty Unit) fun _ s => s.Filed n := by
  refine .bind (Q := fun _ s => s.Filed n) (leads_perform fun s _ _ => ?_) fun _ =>
    leads_forM fun a _ => leads_perform fun _ h _ => h.setAttribute
  have empty : (((Edit.clearAttributes n).apply s).data n).attributes = ∅ := by
    simp only [Edit.apply, Store.data_modifyData, true_and]
    split
    next => rfl
    next hn => rw [Store.data_of_not_mem hn]
  exact Data.filed_of_empty empty

theorem leads_layerAttributes_filed {P : Store → Prop} (source target : NodeId) :
    Leads P (layerAttributes source target : Script σ Empty Unit) fun _ s => s.Filed target :=
  leads_read_bind fun _ => .bind (Q := fun _ _ => True) (fun _ _ _ _ _ => trivial) fun as =>
    leads_replaceAttributes target as

end Script

end SnippetTree
