import SnippetTree.Proofs.Filing

namespace SnippetTree

namespace Attribute

variable {m : Keyed Attribute} {base given : List Attribute}

theorem keys_give (m : Keyed Attribute) (a : Attribute) :
    (give m a).keys = if a.name ∈ m.keys then m.keys else m.keys ++ [a.name] := by
  unfold give
  split <;> exact Keyed.keys_insert ..

theorem keys_foldl {f : Keyed Attribute → Attribute → Keyed Attribute}
    (step : ∀ m a, (f m a).keys = if a.name ∈ m.keys then m.keys else m.keys ++ [a.name])
    (nodup : (given.map name).Nodup) :
    (given.foldl f m).keys = m.keys ++ (given.map name).filter (· ∉ m.keys) := by
  induction given generalizing m with
  | nil => simp
  | cons a given ih =>
    obtain ⟨hnew, hgiven⟩ := List.nodup_cons.mp nodup
    rw [List.foldl_cons, ih hgiven, step]
    by_cases ha : a.name ∈ m.keys
    · simp [ha]
    · have hrest : (given.map name).filter (· ∉ m.keys ++ [a.name]) =
          (given.map name).filter (· ∉ m.keys) :=
        List.filter_congr fun b hb => by
          simp [show b ≠ a.name from fun he => hnew (he ▸ hb)]
      rw [if_neg ha, hrest, List.map_cons, List.filter_cons_of_pos (by simpa using ha),
        List.append_assoc, List.singleton_append]

theorem keys_byName (nodup : (base.map name).Nodup) : (byName base).keys = base.map name := by
  rw [byName, keys_foldl (fun m a => Keyed.keys_insert m a.name a) nodup]
  simp [Keyed.keys, EmptyCollection.emptyCollection, Keyed.empty]

theorem map_name_layer (nodup : (base.map name).Nodup) (nodup' : (given.map name).Nodup) :
    (layer base given).map name =
      base.map name ++ (given.map name).filter (· ∉ base.map name) := by
  rw [layer, (byName_foldl_give (byName_byName base) given).map_name, keys_foldl keys_give nodup',
    keys_byName nodup]

end Attribute

namespace Element

variable {e given : Element}

theorem foldl_insertClass (given classes : List String) : given.foldl insertClass classes =
    classes ++ (given.filter fun c => c ≠ "" ∧ c ∉ classes).eraseDups := by
  induction given generalizing classes with
  | nil => simp
  | cons c given ih =>
    rw [List.foldl_cons, ih, insertClass]
    by_cases hc : c = "" ∨ c ∈ classes
    · rw [if_pos hc, List.filter_cons_of_neg]
      simpa [← not_or] using hc
    · have hrest : (given.filter fun d => d ≠ "" ∧ d ∉ classes ++ [c]) =
          (given.filter fun d => d ≠ "" ∧ d ∉ classes).filter fun d => !d == c := by
        rw [List.filter_filter]
        exact List.filter_congr fun d _ => by simp; grind
      rw [if_neg hc, List.filter_cons_of_pos (by simpa [not_or] using hc), List.eraseDups_cons,
        hrest, List.append_assoc, List.singleton_append]

theorem noClass_layer (h : e.WellNamed) (h' : given.WellNamed) :
    ∀ a ∈ Attribute.layer e.attributes given.attributes, a.name ≠ Attribute.className := by
  intro a ha he
  have hname : a.name ∈ (Attribute.layer e.attributes given.attributes).map Attribute.name :=
    List.mem_map_of_mem ha
  rw [Attribute.map_name_layer h.nodup h'.nodup, List.mem_append, he] at hname
  exact hname.elim h.noClass fun hm => h'.noClass (List.mem_of_mem_filter hm)

theorem classes_merge (h : e.WellNamed) (h' : given.WellNamed) :
    (e.merge given).classes = given.classes.foldl insertClass e.classes := by
  have none : (Attribute.layer e.attributes given.attributes).filter
      (·.name = Attribute.className) = [] :=
    List.filter_eq_nil_iff.mpr fun a ha => by simpa using noClass_layer h h' a ha
  simp only [merge, withAttributes, none, List.flatMap_nil, List.foldl_nil]

theorem map_name_merge (h : e.WellNamed) (h' : given.WellNamed) :
    (e.merge given).attributes.map Attribute.name = e.attributes.map Attribute.name ++
      (given.attributes.map Attribute.name).filter (· ∉ e.attributes.map Attribute.name) := by
  have all : (Attribute.layer e.attributes given.attributes).filter
      (·.name ≠ Attribute.className) = Attribute.layer e.attributes given.attributes :=
    List.filter_eq_self.mpr fun a ha => by simpa using noClass_layer h h' a ha
  simp only [merge, withAttributes, all]
  rw [(Attribute.byName_byName _).map_name, Attribute.keys_byName (Attribute.nodup_layer _ _),
    Attribute.map_name_layer h.nodup h'.nodup]

/-- The third element is the first one with what the second one gives it. -/
structure Overlaid (e given e' : Element) : Prop where
  name : e'.name = e.name
  value : e'.value = given.value.or e.value
  selfClosing : e'.selfClosing = (e.selfClosing || given.selfClosing)
  repetition : e'.repetition = given.repetition.or e.repetition
  classes : e'.classes =
    e.classes ++ (given.classes.filter fun c => c ≠ "" ∧ c ∉ e.classes).eraseDups
  names : e'.attributes.map Attribute.name = e.attributes.map Attribute.name ++
    (given.attributes.map Attribute.name).filter (· ∉ e.attributes.map Attribute.name)
  both : ∀ a ∈ e.attributes, ∀ b ∈ given.attributes, a.name = b.name →
    { name := a.name, value := b.value, implied := false } ∈ e'.attributes
  kept : ∀ a ∈ e.attributes, a.name ∉ given.attributes.map Attribute.name → a ∈ e'.attributes
  added : ∀ b ∈ given.attributes, b.name ∉ e.attributes.map Attribute.name → b ∈ e'.attributes

theorem attribute?_eq_none_iff {key : String} :
    e.attribute? key = none ↔ key ∉ e.attributes.map Attribute.name := by
  simp [attribute?]

theorem overlaid_merge (h : e.WellNamed) (h' : given.WellNamed) :
    Overlaid e given (e.merge given) where
  name := rfl
  value := rfl
  selfClosing := Bool.or_comm ..
  repetition := rfl
  classes := (classes_merge h h').trans (foldl_insertClass ..)
  names := map_name_merge h h'
  both := by
    intro a ha b hb hname
    refine List.mem_of_find?_eq_some (?_ : (e.merge given).attribute? a.name = _)
    rw [attribute?_merge h h', h.attribute?_eq_some_iff.mpr ⟨ha, rfl⟩,
      h'.attribute?_eq_some_iff.mpr ⟨hb, hname.symm⟩]
    rfl
  kept := by
    intro a ha hnew
    refine List.mem_of_find?_eq_some (?_ : (e.merge given).attribute? a.name = _)
    rw [attribute?_merge h h', attribute?_eq_none_iff.mpr hnew]
    exact h.attribute?_eq_some_iff.mpr ⟨ha, rfl⟩
  added := by
    intro b hb hnew
    refine List.mem_of_find?_eq_some (?_ : (e.merge given).attribute? b.name = _)
    rw [attribute?_merge h h', attribute?_eq_none_iff.mpr hnew,
      h'.attribute?_eq_some_iff.mpr ⟨hb, rfl⟩]
    rfl

end Element

theorem Data.repetition_addClass (d : Data) (name : String) :
    (d.addClass name).repetition = d.repetition := by
  unfold addClass
  split <;> rfl

namespace Script

open Store

variable {σ : Type} {n : NodeId} {K : Data → Prop}

theorem leads_perform_data {e : Edit} {f : Data → Data} (apply : ∀ s, e.apply s = s.modifyData n f)
    (keeps : ∀ d, K d → K (f d)) :
    Leads (fun s => K (s.data n)) (perform e : Script σ Empty Unit) fun _ s => K (s.data n) :=
  leads_perform fun s h _ => apply s ▸ keeps_modifyData keeps h

theorem leads_addClassesOf_data (classes : ∀ d name, K d → K (d.addClass name))
    (source target : NodeId) :
    Leads (fun s => K (s.data target)) (addClassesOf source target : Script σ Empty Unit)
      fun _ s => K (s.data target) :=
  leads_read_bind fun _ => leads_forM fun _ _ =>
    leads_perform_data (fun _ => rfl) fun d hd => classes d _ hd

theorem leads_layerAttributes_data (classes : ∀ d name, K d → K (d.addClass name))
    (attributes : ∀ d m, K d → K { d with attributes := m }) (source target : NodeId) :
    Leads (fun s => K (s.data target)) (layerAttributes source target : Script σ Empty Unit)
      fun _ s => K (s.data target) := by
  have new : ∀ record, Leads (fun s => K (s.data target))
      (newAttribute record : Script σ Empty AttributeId) fun _ s => K (s.data target) ∧ True := by
    rintro record w _ _ start ⟨⟩
    exact ⟨start, trivial⟩
  have set : ∀ a, Leads (fun s => K (s.data target))
      (perform (.setAttribute target a) : Script σ Empty Unit) fun _ s => K (s.data target) :=
    fun a => leads_perform fun s h _ => keeps_setAttribute classes (fun d _ => attributes d _) h
  have clear : Leads (fun s => K (s.data target))
      (perform (.clearAttributes target) : Script σ Empty Unit) fun _ s => K (s.data target) :=
    leads_perform_data (fun _ => rfl) fun d => attributes d ∅
  refine leads_read_bind fun records => (leads_mapM new records).bind fun as => ?_
  exact (clear.bind fun _ => leads_forM fun a _ => set a).mono (fun _ h => h.1) fun _ _ h => h

theorem leads_merge_repetition (source target : NodeId) (x : Option RepetitionId) :
    Leads (fun s => (s.data target).repetition = x ∧ (s.element source).repetition = none)
      (merge source target : Script σ Empty Unit) fun _ s => (s.data target).repetition = x := by
  let P : Store → Prop := fun s => (s.data target).repetition = x
  have pass : Leads P (pure () : Script σ Empty Unit) fun _ => P := leads_pure fun _ h => h
  have setFlag : Leads P (perform (.setSelfClosing target true) : Script σ Empty Unit) fun _ => P :=
    leads_perform_data (K := (·.repetition = x)) (f := ({ · with selfClosing := true }))
      (fun _ => rfl) fun _ hd => hd
  have setValue : ∀ value, Leads P
      (perform (.setValue target value) : Script σ Empty Unit) fun _ => P := fun value =>
    leads_perform_data (K := (·.repetition = x)) (f := ({ · with value })) (fun _ => rfl)
      fun _ hd => hd
  have classes : ∀ (d : Data) name, d.repetition = x → (d.addClass name).repetition = x :=
    fun d name hd => (d.repetition_addClass name).trans hd
  rw [merge_eq]
  refine (leads_read _).bind fun e => (leads_of_fact fun none : e.repetition = none => ?_).mono
    (fun _ h => ⟨h.1.1, h.2 ▸ h.1.2⟩) fun _ _ h => h
  rw [none]
  refine .bind (Q := fun _ => P) ?_ fun _ => .bind (Q := fun _ => P) ?_ fun _ => pass.bind fun _ =>
    .bind (leads_addClassesOf_data (K := (·.repetition = x)) classes source target) fun _ =>
      leads_layerAttributes_data (K := (·.repetition = x)) classes (fun _ _ hd => hd) source target
  · split
    · exact setFlag
    · exact pass
  · split
    · exact setValue _
    · exact pass

theorem leads_merge_filed {P : Store → Prop} (source target : NodeId) :
    Leads P (merge source target : Script σ Empty Unit) fun _ s => s.Filed target := by
  have any : ∀ p : Script σ Empty Unit, Leads (fun _ => True) p fun _ _ => True :=
    fun _ _ _ _ _ _ => trivial
  rw [merge_eq]
  exact leads_read_bind fun e => ((any _).bind fun _ => (any _).bind fun _ => (any _).bind fun _ =>
    (any _).bind fun _ => leads_layerAttributes_filed source target).mono (fun _ _ => trivial)
      fun _ _ h => h

end Script

/-- The second store is the first one with `source` merged into `target`, and with more records. -/
structure Store.Overlaid (s s' : Store) (source target : NodeId) : Prop where
  shows : (s.element target).Overlaid (s.element source) (s'.element target)
  filed : s'.Filed target
  repetition : (s.data source).repetition = none →
    (s'.data target).repetition = (s.data target).repetition
  links : ∀ m, s'.links m = s.links m
  data : ∀ m, m ≠ target → s'.data m = s.data m
  retains : s.Retains s'
  given : s'.element source = s.element source

/-- Merging one node into another one succeeds, and gives the latter what the former shows, on top
of what it had. -/
theorem merge_overlays {σ : Type} (w : World σ) (sound : w.store.Sound) (source target : NodeId)
    (hsource : source ∈ w.store) (htarget : target ∈ w.store) (hne : source ≠ target)
    (filed : w.store.Filed source) (filed' : w.store.Filed target) :
    ∃ s', (Script.merge source target : Script σ Empty Unit).run w =
        (.done (), { w with store := s' }) ∧ w.store.Overlaid s' source target := by
  obtain ⟨s', hrun, drawn⟩ := Store.draws_merge sound hsource htarget hne
  have dressed := Script.leads_merge (s := w.store) source target w _ _ (.refl _ _) hrun
  have tidied : s'.Filed target :=
    Script.leads_merge_filed (P := fun _ => True) source target w () _ trivial hrun
  refine ⟨s', hrun, ?_, tidied, fun none => ?_, dressed.links, dressed.data, dressed.retains,
    drawn.others source hsource hne⟩
  · rw [drawn.element]
    exact Element.overlaid_merge filed'.wellNamed filed.wellNamed
  · have unrepeated : (w.store.element source).repetition = Option.none :=
      congrArg (Option.map w.store.repetitionAt) none
    exact Script.leads_merge_repetition source target _ w _ _ ⟨rfl, unrepeated⟩ hrun

/-- Two nodes share a placeholder. Once one is merged into the other, the latter has an attribute in
its place that is no longer implied, while the former still has the placeholder. -/
theorem merge_overlays_placeholder :
    let making : Script Unit Empty Unit := do
      let src ← Script.newAttribute { name := "src", implied := true }
      let id ← Script.newAttribute { name := "id", value := some "k" }
      let title ← Script.newAttribute { name := "title", implied := true }
      let _ ← Script.newNode (some "img") (some "t") true none [src, id] ["x"]
      let _ ← Script.newNode (some "y") (some "") false none [title, src] ["z", "x"]
    let w : World Unit := (making.run { store := {}, state := () }).2
    w.store.Sound ∧ ⟨1⟩ ∈ w.store ∧ ⟨0⟩ ∈ w.store ∧ w.store.Filed ⟨1⟩ ∧ w.store.Filed ⟨0⟩ ∧
    ∃ s', (Script.merge ⟨1⟩ ⟨0⟩ : Script Unit Empty Unit).run w =
        (.done (), { w with store := s' }) ∧
      w.store.Overlaid s' ⟨1⟩ ⟨0⟩ ∧
      s'.element ⟨0⟩ = {
        name := some "img", value := some "", selfClosing := true, classes := ["x", "z"]
        attributes := [{ name := "src" }, { name := "id", value := some "k" },
          { name := "title", implied := true }] } ∧
      (s'.element ⟨1⟩).attributes = [{ name := "title", implied := true },
        { name := "src", implied := true }] := by
  intro making w
  have sound : w.store.Sound := Script.run_sound Store.sound_empty
  have held : ⟨1⟩ ∈ w.store ∧ ⟨0⟩ ∈ w.store := by decide +kernel
  have filed : w.store.Filed ⟨1⟩ := by decide +kernel
  have filed' : w.store.Filed ⟨0⟩ := by decide +kernel
  obtain ⟨s', hrun, overlaid⟩ :=
    merge_overlays w sound ⟨1⟩ ⟨0⟩ held.1 held.2 (by decide) filed filed'
  have shown := congrArg (fun out => out.2.store.element ⟨0⟩) hrun
  have given := congrArg Element.attributes overlaid.given
  exact ⟨sound, held.1, held.2, filed, filed', s', hrun, overlaid,
    shown.symm.trans (by decide +kernel), given.trans (by decide +kernel)⟩

end SnippetTree
