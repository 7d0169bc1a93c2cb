import SnippetTree.Proofs.Reached
import SnippetTree.Script.Merging

namespace SnippetTree

/-- Adds a class name that is not empty and not there yet. -/
def Element.insertClass (classes : List String) (name : String) : List String :=
  if name = "" ∨ name ∈ classes then classes else classes ++ [name]

/-- The element after attributes were set on it one by one, where it had none before: those that
list class names add these, and of two with one name the later wins. -/
def Element.withAttributes (e : Element) (records : List Attribute) : Element where
  name := e.name
  value := e.value
  selfClosing := e.selfClosing
  repetition := e.repetition
  classes := ((records.filter (·.name = Attribute.className)).flatMap fun a =>
    Text.words (a.value.getD "")).foldl insertClass e.classes
  attributes := (Attribute.byName (records.filter (·.name ≠ Attribute.className))).values

/-- What a node shows once a node that shows `given` was merged into it. -/
def Element.merge (e given : Element) : Element :=
  Element.withAttributes
    { name := e.name
      value := given.value.or e.value
      selfClosing := given.selfClosing || e.selfClosing
      repetition := given.repetition.or e.repetition
      classes := given.classes.foldl insertClass e.classes }
    (Attribute.layer e.attributes given.attributes)

def Data.give (d : Data) (record : Attribute) (a : AttributeId) : Data :=
  if record.name = Attribute.className then
    { d with classes := (Text.words (record.value.getD "")).foldl Element.insertClass d.classes }
  else { d with attributes := d.attributes.insert record.name a }

theorem Data.foldl_give (as : List AttributeId) (record : AttributeId → Attribute) (d : Data) :
    as.foldl (fun d a => d.give (record a) a) d =
      { d with
        classes := (((as.map record).filter (·.name = Attribute.className)).flatMap fun a =>
          Text.words (a.value.getD "")).foldl Element.insertClass d.classes
        attributes := (as.filter fun a => (record a).name ≠ Attribute.className).foldl
          (fun m a => m.insert (record a).name a) d.attributes } := by
  induction as generalizing d with
  | nil => rfl
  | cons a as ih =>
    rw [List.foldl_cons, ih]
    by_cases ha : (record a).name = Attribute.className
    · simp [give, ha, List.foldl_append]
    · simp [give, ha]

namespace Keyed

variable {β γ : Type}

theorem map_put (f : β → γ) (key : String) (value : β) (entries : List (String × β)) :
    (put key value entries).map (Prod.map id f) = put key (f value) (entries.map (Prod.map id f)) := by
  induction entries with
  | nil => rfl
  | cons entry rest ih =>
    by_cases h : entry.1 = key <;> simp [put, h, ih]

theorem map_values_foldl_insert (f : β → γ) (name : γ → String) (bs : List β) (m : Keyed β)
    (m' : Keyed γ) (same : m.entries.map (Prod.map id f) = m'.entries) :
    ((bs.foldl (fun m b => m.insert (name (f b)) b) m).values.map f) =
      ((bs.map f).foldl (fun m c => m.insert (name c) c) m').values := by
  induction bs generalizing m m' with
  | nil => simp [values, ← same]
  | cons b bs ih =>
    refine ih _ _ ?_
    simp only [insert, map_put, same]

end Keyed

namespace Store

variable {s s' s'' : Store} {n m : NodeId}

def shown (s : Store) (d : Data) : Element where
  name := d.name
  value := d.value
  selfClosing := d.selfClosing
  repetition := d.repetition.map s.repetitionAt
  classes := d.classes
  attributes := d.attributes.values.map s.attributeAt

theorem element_eq_shown : s.element n = s.shown (s.data n) := rfl

/-- The guards of one store are those of the other, which may have more. -/
def KeepsGuards (s s' : Store) : Prop :=
  ∀ g : GuardId, g.index < s.guards.size →
    g.index < s'.guards.size ∧ s'.guardAt g = s.guardAt g

theorem KeepsGuards.refl (s : Store) : s.KeepsGuards s := fun _ hg => ⟨hg, rfl⟩

theorem KeepsGuards.trans (h : s.KeepsGuards s') (h' : s'.KeepsGuards s'') :
    s.KeepsGuards s'' := by
  intro g hg
  obtain ⟨held, he⟩ := h g hg
  obtain ⟨held', he'⟩ := h' g held
  exact ⟨held', he'.trans he⟩

theorem KeepsGuards.of_eq (h : s'.guards = s.guards) : s.KeepsGuards s' := by
  intro g hg
  rw [guardAt, guardAt, h]
  exact ⟨hg, rfl⟩

/-- The second store is the first one with `n` showing `e`. -/
structure Redrawn (s s' : Store) (n : NodeId) (e : Element) : Prop where
  held : ∀ m ∈ s, m ∈ s'
  guards : s.KeepsGuards s'
  links : ∀ m, s'.links m = s.links m
  element : s'.element n = e
  others : ∀ m ∈ s, m ≠ n → s'.element m = s.element m

namespace Redrawn

variable {e e' : Element}

theorem refl (s : Store) (n : NodeId) : s.Redrawn s n (s.element n) :=
  ⟨fun _ hm => hm, .refl s, fun _ => rfl, rfl, fun _ _ _ => rfl⟩

theorem trans (h : s.Redrawn s' n e) (h' : s'.Redrawn s'' n e') : s.Redrawn s'' n e' where
  held := fun m hm => h'.held m (h.held m hm)
  guards := h.guards.trans h'.guards
  links := fun m => (h'.links m).trans (h.links m)
  element := h'.element
  others := fun m hm hne => (h'.others m (h.held m hm) hne).trans (h.others m hm hne)

theorem of_data (alters : s.AltersNodes s') (links : ∀ m, s'.links m = s.links m)
    (data : ∀ m, m ≠ n → s'.data m = s.data m) : s.Redrawn s' n (s.shown (s'.data n)) := by
  obtain ⟨nodes, hsize, rfl⟩ := alters
  refine ⟨fun m hm => ?_, .of_eq rfl, links, rfl, fun m _ hm => ?_⟩
  · rw [mem_iff] at hm ⊢
    exact hsize ▸ hm
  · exact congrArg s.shown (data m hm)

theorem modifyData (hn : n ∈ s) (f : Data → Data) :
    s.Redrawn (s.modifyData n f) n (s.shown (f (s.data n))) := by
  have h : s.Redrawn (s.modifyData n f) n (s.shown ((s.modifyData n f).data n)) :=
    of_data (altersNodes_modifyNode ..) (fun _ => links_modifyData ..) fun m hm => by
      rw [data_modifyData, if_neg fun h => hm h.1]
  rwa [data_modifyData, if_pos ⟨rfl, hn⟩] at h

end Redrawn

theorem Grounded.shown_congr (h : s.Grounded)
    (attributes : ∀ a, s.hasAttribute a → s'.attributeAt a = s.attributeAt a)
    (repetitions : ∀ r, s.hasRepetition r → s'.repetitionAt r = s.repetitionAt r) (n : NodeId) :
    s'.shown (s.data n) = s.shown (s.data n) := by
  have ha : (s.data n).attributes.values.map s'.attributeAt =
      (s.data n).attributes.values.map s.attributeAt :=
    List.map_congr_left fun a ha => attributes a (h.attributes n a ha)
  have hr : (s.data n).repetition.map s'.repetitionAt =
      (s.data n).repetition.map s.repetitionAt :=
    Option.map_congr fun r hr => repetitions r (h.repetitions n r hr)
  simp only [shown, ha, hr]

theorem attributeAt_addAttribute {record : Attribute} {a : AttributeId} :
    ((Edit.addAttribute record).apply s).attributeAt a =
      if a = s.freshAttribute then record else s.attributeAt a := by
  obtain ⟨i⟩ := a
  simp only [Edit.apply, attributeAt, freshAttribute, AttributeId.mk.injEq,
    Array.getD_eq_getD_getElem?, Array.getElem?_push]
  split <;> simp

theorem repetitionAt_addRepetition {record : Repetition} {r : RepetitionId} :
    ((Edit.addRepetition record).apply s).repetitionAt r =
      if r = s.freshRepetition then record else s.repetitionAt r := by
  obtain ⟨i⟩ := r
  simp only [Edit.apply, repetitionAt, freshRepetition, RepetitionId.mk.injEq,
    Array.getD_eq_getD_getElem?, Array.getElem?_push]
  split <;> simp

theorem Redrawn.addAttribute (h : s.Grounded) (record : Attribute) (n : NodeId) :
    s.Redrawn ((Edit.addAttribute record).apply s) n (s.element n) := by
  have same : ∀ m, ((Edit.addAttribute record).apply s).element m = s.element m := by
    refine h.shown_congr (fun a ha => ?_) fun _ _ => rfl
    rw [attributeAt_addAttribute, if_neg]
    rintro rfl
    simp [hasAttribute, freshAttribute] at ha
  exact ⟨fun _ hm => hm, .of_eq rfl, fun _ => rfl, same n, fun m _ _ => same m⟩

theorem Redrawn.addRepetition (h : s.Grounded) (record : Repetition) (n : NodeId) :
    s.Redrawn ((Edit.addRepetition record).apply s) n (s.element n) := by
  have same : ∀ m, ((Edit.addRepetition record).apply s).element m = s.element m := by
    refine h.shown_congr (fun _ _ => rfl) fun r hr => ?_
    rw [repetitionAt_addRepetition, if_neg]
    rintro rfl
    simp [hasRepetition, freshRepetition] at hr
  exact ⟨fun _ hm => hm, .of_eq rfl, fun _ => rfl, same n, fun m _ _ => same m⟩

theorem altersNodes_addClasses (s : Store) (n : NodeId) (names : List String) :
    s.AltersNodes (names.foldl (·.addClass n) s) := by
  induction names generalizing s with
  | nil => exact .refl s
  | cons name names ih => exact (altersNodes_modifyNode ..).trans (ih (s.addClass n name))

theorem mem_addClass {name : String} : m ∈ s.addClass n name ↔ m ∈ s := mem_modifyNode

theorem data_addClasses (hn : n ∈ s) (names : List String) :
    (names.foldl (·.addClass n) s).data m =
      if m = n then
        { s.data n with classes := names.foldl Element.insertClass (s.data n).classes }
      else s.data m := by
  induction names generalizing s with
  | nil =>
    split
    next h => rw [h]; rfl
    next => rfl
  | cons name names ih =>
    have hd : ∀ m, (s.addClass n name).data m = if m = n then
        { s.data n with classes := Element.insertClass (s.data n).classes name } else s.data m := by
      intro m
      rw [addClass, data_modifyData]
      simp only [hn, and_true, Element.insertClass]
      split
      next => split <;> rfl
      next => rfl
    rw [List.foldl_cons, ih (mem_addClass.mpr hn)]
    simp only [hd, ↓reduceIte, List.foldl_cons]
    split <;> rfl

theorem altersNodes_setAttribute (s : Store) (n : NodeId) (a : AttributeId) :
    s.AltersNodes (s.setAttribute n a) := by
  unfold setAttribute
  simp only
  split
  next => exact .refl s
  next =>
    split
    next => exact altersNodes_addClasses ..
    next => exact altersNodes_modifyNode ..

theorem data_setAttribute (hn : n ∈ s) {a : AttributeId} (ha : s.hasAttribute a) :
    (s.setAttribute n a).data m =
      if m = n then (s.data n).give (s.attributeAt a) a else s.data m := by
  unfold setAttribute
  simp only [ha, Bool.not_true, Bool.false_eq_true, ↓reduceIte, Data.give]
  split
  next => rw [data_addClasses hn]
  next => simp only [data_modifyData, hn, and_true]

theorem AltersNodes.mem_iff (h : s.AltersNodes s') : m ∈ s' ↔ m ∈ s := by
  obtain ⟨nodes, hsize, rfl⟩ := h
  rw [Store.mem_iff, Store.mem_iff, hsize]

theorem altersNodes_setAttributes (s : Store) (n : NodeId) (as : List AttributeId) :
    s.AltersNodes (as.foldl (·.setAttribute n ·) s) := by
  induction as generalizing s with
  | nil => exact .refl s
  | cons a as ih => exact (altersNodes_setAttribute ..).trans (ih (s.setAttribute n a))

theorem data_setAttributes (hn : n ∈ s) (as : List AttributeId)
    (held : ∀ a ∈ as, s.hasAttribute a) :
    (as.foldl (·.setAttribute n ·) s).data m =
      if m = n then as.foldl (fun d a => d.give (s.attributeAt a) a) (s.data n)
      else s.data m := by
  induction as generalizing s with
  | nil =>
    split
    next h => rw [h]; rfl
    next => rfl
  | cons a as ih =>
    have halter := s.altersNodes_setAttribute n a
    have hat : (s.setAttribute n a).attributeAt = s.attributeAt := by
      obtain ⟨nodes, _, he⟩ := halter
      rw [he]
      rfl
    have hheld : ∀ b ∈ as, (s.setAttribute n a).hasAttribute b := by
      obtain ⟨nodes, _, he⟩ := halter
      rw [he]
      exact fun b hb => held b (by simp [hb])
    rw [List.foldl_cons, ih (halter.mem_iff.mpr hn) hheld, hat,
      data_setAttribute hn (held a (by simp)), data_setAttribute hn (held a (by simp))]
    simp only [↓reduceIte, List.foldl_cons]
    split <;> rfl

end Store

end SnippetTree
