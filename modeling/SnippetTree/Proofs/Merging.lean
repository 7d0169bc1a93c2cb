import SnippetTree.Proofs.Drawing

namespace SnippetTree

namespace Script

variable {σ α β : Type} {w w' : World σ}

theorem run_bind_of_done {p : Script σ Empty α} {f : α → Script σ Empty β} {a : α}
    (h : p.run w = (.done a, w')) : (p >>= f).run w = (f a).run w' := by
  rw [bind_eq, run_bind, h]

theorem run_bind_of_failed {p : Script σ Empty α} {f : α → Script σ Empty β} {fault : Fault}
    (h : p.run w = (.failed fault, w')) : (p >>= f).run w = (.failed fault, w') := by
  rw [bind_eq, run_bind, h]

theorem run_perform_of_none {e : Edit} (ok : e.refusal? w.store = none) :
    (perform e).run w = (.done (), { w with store := e.apply w.store }) := by
  rw [run_perform, ok]

theorem sound_of_run {p : Script σ Empty α} {out : Outcome α} (sound : w.store.Sound)
    (h : p.run w = (out, w')) : w'.store.Sound := by
  have hs := run_sound (p := p) sound
  rwa [h] at hs

theorem run_forM_perform {ι : Type} (f : ι → Edit) (ok : ∀ i s, (f i).refusal? s = none)
    (is : List ι) (w : World σ) :
    (is.forM fun i => perform (f i)).run w =
      (.done (), { w with store := is.foldl (fun s i => (f i).apply s) w.store }) := by
  induction is generalizing w with
  | nil => rfl
  | cons i is ih =>
    exact (run_bind_of_done (run_perform_of_none (ok i w.store))).trans (ih _)

theorem run_newAttribute (record : Attribute) (w : World σ) :
    (newAttribute record).run w =
      (.done w.store.freshAttribute,
        { w with store := (Edit.addAttribute record).apply w.store }) := rfl

theorem run_newRepetition (record : Repetition) (w : World σ) :
    (newRepetition record).run w =
      (.done w.store.freshRepetition,
        { w with store := (Edit.addRepetition record).apply w.store }) := rfl

end Script

namespace Store

variable {σ β : Type} {w : World σ} {s s' s'' : Store} {n m source target : NodeId}

/-- The second store has the records of the first one, and may have more. -/
structure KeepsRecords (s s' : Store) : Prop where
  attributes : ∀ a, s.hasAttribute a → s'.hasAttribute a ∧ s'.attributeAt a = s.attributeAt a
  nodes : s'.nodes = s.nodes

theorem KeepsRecords.trans (h : s.KeepsRecords s') (h' : s'.KeepsRecords s'') :
    s.KeepsRecords s'' where
  attributes := by
    intro a ha
    obtain ⟨held, he⟩ := h.attributes a ha
    obtain ⟨held', he'⟩ := h'.attributes a held
    exact ⟨held', he'.trans he⟩
  nodes := h'.nodes.trans h.nodes

theorem keepsRecords_addAttribute (record : Attribute) :
    s.KeepsRecords ((Edit.addAttribute record).apply s) where
  attributes := by
    intro a ha
    have hlt : a.index < s.attributes.size := by simpa [hasAttribute] using ha
    constructor
    · simp only [hasAttribute, Edit.apply, Array.size_push, decide_eq_true_eq]
      omega
    · rw [attributeAt_addAttribute, if_neg]
      rintro rfl
      simp [freshAttribute] at hlt
  nodes := rfl

theorem run_newAttributes (h : w.store.Grounded) (n : NodeId) (records : List Attribute) :
    ∃ as s', (records.mapM Script.newAttribute).run w = (.done as, { w with store := s' }) ∧
      w.store.Redrawn s' n (w.store.element n) ∧ w.store.KeepsRecords s' ∧
      as.map s'.attributeAt = records ∧ ∀ a ∈ as, s'.hasAttribute a := by
  induction records generalizing w with
  | nil => exact ⟨[], w.store, rfl, .refl .., ⟨fun a ha => ⟨ha, rfl⟩, rfl⟩, rfl, by simp⟩
  | cons record records ih =>
    have hfirst := Redrawn.addAttribute h record n
    have hkeep := keepsRecords_addAttribute (s := w.store) record
    obtain ⟨as, s', hrun, hdrawn, hkept, hmap, hheld⟩ :=
      ih (w := { w with store := (Edit.addAttribute record).apply w.store })
        (Edit.grounded_apply h (.addAttribute record))
    rw [hfirst.element] at hdrawn
    have hfresh : ((Edit.addAttribute record).apply w.store).hasAttribute
        w.store.freshAttribute := by
      simp [hasAttribute, Edit.apply, freshAttribute]
    obtain ⟨held, hat⟩ := hkept.attributes _ hfresh
    rw [attributeAt_addAttribute, if_pos rfl] at hat
    refine ⟨w.store.freshAttribute :: as, s', ?_, hfirst.trans hdrawn, hkeep.trans hkept, ?_, ?_⟩
    · rw [List.mapM_cons, Script.run_bind_of_done (Script.run_newAttribute record w),
        Script.run_bind_of_done hrun]
      rfl
    · rw [List.map_cons, hat, hmap]
    · intro a ha
      rcases List.mem_cons.mp ha with rfl | ha
      · exact held
      · exact hheld a ha

/-- The script succeeds, and only redraws `n`, which then shows `e`. -/
def Draws (w : World σ) (p : Script σ Empty Unit) (n : NodeId) (e : Element) : Prop :=
  ∃ s', p.run w = (.done (), { w with store := s' }) ∧ w.store.Redrawn s' n e

theorem Draws.bind {p q : Script σ Empty Unit} {e e' : Element} (h : Draws w p n e)
    (sound : w.store.Sound)
    (rest : ∀ s', s'.Sound → w.store.Redrawn s' n e → Draws { w with store := s' } q n e') :
    Draws w (p >>= fun _ => q) n e' := by
  obtain ⟨s', hrun, hdrawn⟩ := h
  obtain ⟨s'', hrest, hdrawn'⟩ := rest s' (Script.sound_of_run sound hrun) hdrawn
  exact ⟨s'', (Script.run_bind_of_done hrun).trans hrest, hdrawn.trans hdrawn'⟩

theorem Draws.read {f : Store → β} {q : β → Script σ Empty Unit} {e : Element}
    (h : Draws w (q (f w.store)) n e) : Draws w (Script.read f >>= q) n e := h

theorem Draws.pure (w : World σ) (n : NodeId) :
    Draws w (Pure.pure () : Script σ Empty Unit) n (w.store.element n) :=
  ⟨w.store, rfl, .refl ..⟩

theorem Draws.modifyData {e : Edit} {f : Data → Data} (hn : n ∈ w.store)
    (ok : e.refusal? w.store = none) (apply : e.apply w.store = w.store.modifyData n f) :
    Draws w (Script.perform e) n (w.store.shown (f (w.store.data n))) := by
  refine ⟨_, Script.run_perform_of_none ok, ?_⟩
  rw [apply]
  exact .modifyData hn f

theorem draws_setSelfClosing (hn : n ∈ w.store) (selfClosing : Bool) :
    Draws w (Script.perform (.setSelfClosing n selfClosing)) n
      { w.store.element n with selfClosing } :=
  .modifyData (f := fun d => { d with selfClosing }) hn rfl rfl

theorem draws_setValue (hn : n ∈ w.store) (value : Option String) :
    Draws w (Script.perform (.setValue n value)) n { w.store.element n with value } :=
  .modifyData (f := fun d => { d with value }) hn rfl rfl

theorem draws_setRepetition (sound : w.store.Sound) (hn : n ∈ w.store) (record : Repetition) :
    Draws w
      (Script.newRepetition record >>= fun r => Script.perform (.setRepetition n (some r))) n
      { w.store.element n with repetition := some record } := by
  have hfirst := Redrawn.addRepetition sound.grounded record n
  have hfresh : ((Edit.addRepetition record).apply w.store).hasRepetition
      w.store.freshRepetition := by
    simp [hasRepetition, Edit.apply, freshRepetition]
  obtain ⟨s', hrun, hdrawn⟩ : Draws { w with store := (Edit.addRepetition record).apply w.store }
      (Script.perform (.setRepetition n (some w.store.freshRepetition))) n _ :=
    .modifyData (f := fun d => { d with repetition := some w.store.freshRepetition }) hn rfl (by
      simp only [Edit.apply, held, Option.filter_some]
      rw [if_pos (by exact hfresh)])
  refine ⟨s', (Script.run_bind_of_done (Script.run_newRepetition record w)).trans hrun, ?_⟩
  have hrecord : ((Edit.addRepetition record).apply w.store).repetitionAt
      w.store.freshRepetition = record := by rw [repetitionAt_addRepetition, if_pos rfl]
  have hshown := hfirst.trans hdrawn
  simp only [shown, Option.map_some, hrecord] at hshown
  exact hshown

theorem draws_addClasses (hn : n ∈ w.store) (names : List String) :
    Draws w (names.forM fun c => Script.perform (.addClass n c)) n
      { w.store.element n with
        classes := names.foldl Element.insertClass (w.store.element n).classes } := by
  refine ⟨_, Script.run_forM_perform (Edit.addClass n) (fun _ _ => rfl) names w, ?_⟩
  have h := Redrawn.of_data (n := n) (w.store.altersNodes_addClasses n names)
    (fun _ => links_addClasses) fun m hm => by rw [data_addClasses hn, if_neg hm]
  rw [data_addClasses hn, if_pos rfl] at h
  exact h

theorem links_setAttributes {as : List AttributeId} :
    (as.foldl (·.setAttribute n ·) s).links m = s.links m := by
  induction as generalizing s with
  | nil => rfl
  | cons a as ih => exact ih.trans links_setAttribute

theorem draws_setAttributes (hn : n ∈ w.store) (none : (w.store.data n).attributes = ∅)
    (as : List AttributeId) (held : ∀ a ∈ as, w.store.hasAttribute a) :
    Draws w (as.forM fun a => Script.perform (.setAttribute n a)) n
      (Element.withAttributes (w.store.element n) (as.map w.store.attributeAt)) := by
  refine ⟨_, Script.run_forM_perform (Edit.setAttribute n) (fun _ _ => rfl) as w, ?_⟩
  have h := Redrawn.of_data (n := n) (w.store.altersNodes_setAttributes n as)
    (fun m => links_setAttributes) fun m hm => by
      rw [data_setAttributes hn as held, if_neg hm]
  rw [data_setAttributes hn as held, if_pos rfl, Data.foldl_give, none] at h
  have hvalues := Keyed.map_values_foldl_insert w.store.attributeAt Attribute.name
    (as.filter fun a => (w.store.attributeAt a).name ≠ Attribute.className) ∅ ∅ rfl
  have hfilter : (as.map w.store.attributeAt).filter (·.name ≠ Attribute.className) =
      (as.filter fun a => (w.store.attributeAt a).name ≠ Attribute.className).map
        w.store.attributeAt := List.filter_map
  simp only [shown, hvalues, ← hfilter] at h
  exact h

theorem draws_replaceAttributes (sound : w.store.Sound) (hn : n ∈ w.store)
    (records : List Attribute) :
    Draws w (records.mapM Script.newAttribute >>= Script.replaceAttributes n) n
      (Element.withAttributes (w.store.element n) records) := by
  obtain ⟨as, s', hrun, hdrawn, hkept, hmap, hheld⟩ :=
    run_newAttributes sound.grounded n records
  have hn' : n ∈ s' := hdrawn.held n hn
  have hclear : s'.Redrawn (s'.modifyData n ({ · with attributes := ∅ })) n _ :=
    .modifyData hn' ({ · with attributes := ∅ })
  have hdata : (s'.modifyData n ({ · with attributes := ∅ })).data n =
      { s'.data n with attributes := ∅ } := by
    rw [data_modifyData, if_pos ⟨rfl, hn'⟩]
  obtain ⟨s'', hset, hset'⟩ := draws_setAttributes
    (w := { w with store := s'.modifyData n ({ · with attributes := ∅ }) }) (hclear.held n hn')
    (by rw [hdata]) as hheld
  refine ⟨s'', (Script.run_bind_of_done hrun).trans
    ((Script.run_bind_of_done (Script.run_perform_of_none rfl)).trans hset), ?_⟩
  have h := (hdrawn.trans hclear).trans hset'
  have hmap' : as.map (s'.modifyData n ({ · with attributes := ∅ })).attributeAt = records := hmap
  have helement : s'.element n = w.store.element n := hdrawn.element
  rw [hclear.element, hmap'] at h
  rw [← helement]
  exact h

theorem draws_giveFlag (hn : n ∈ w.store) (given : Bool) :
    Draws w (if given then Script.perform (.setSelfClosing n true) else Pure.pure ()) n
      { w.store.element n with selfClosing := given || (w.store.element n).selfClosing } := by
  cases given with
  | false => exact .pure w n
  | true => exact draws_setSelfClosing hn true

theorem draws_giveValue (hn : n ∈ w.store) (given : Option String) :
    Draws w (if given.isSome then Script.perform (.setValue n given) else Pure.pure ()) n
      { w.store.element n with value := given.or (w.store.element n).value } := by
  cases given with
  | none => exact .pure w n
  | some value => exact draws_setValue hn (some value)

theorem draws_giveRepetition (sound : w.store.Sound) (hn : n ∈ w.store)
    (given : Option Repetition) :
    Draws w
      (match given with
        | some record => Script.newRepetition record >>= fun r =>
          Script.perform (.setRepetition n (some r))
        | none => Pure.pure ()) n
      { w.store.element n with repetition := given.or (w.store.element n).repetition } := by
  cases given with
  | none => exact .pure w n
  | some record => exact draws_setRepetition sound hn record

theorem merge_eq (source target : NodeId) :
    (Script.merge source target : Script σ Empty Unit) =
      Script.read (·.element source) >>= fun e =>
        (if e.selfClosing then Script.perform (.setSelfClosing target true) else pure ()) >>= fun _ =>
        (if e.value.isSome then Script.perform (.setValue target e.value) else pure ()) >>= fun _ =>
        (match e.repetition with
          | some record => Script.newRepetition record >>= fun r =>
            Script.perform (.setRepetition target (some r))
          | none => pure ()) >>= fun _ =>
        Script.addClassesOf source target >>= fun _ => Script.layerAttributes source target := by
  unfold Script.merge
  congr 1
  funext e
  cases e.selfClosing <;> cases e.value <;> cases e.repetition <;>
    simp only [Option.isSome_none, Option.isSome_some, Bool.false_eq_true, ↓reduceIte, bind_assoc,
      pure_bind]

/-- Merging gives the target what the source shows, and changes nothing else. -/
theorem draws_merge (sound : w.store.Sound) (hs : source ∈ w.store) (ht : target ∈ w.store)
    (hne : source ≠ target) :
    Draws w (Script.merge source target) target
      ((w.store.element target).merge (w.store.element source)) := by
  rw [merge_eq]
  refine .read (.bind (draws_giveFlag ht _) sound fun s₁ sound₁ drawn₁ => ?_)
  have ht₁ := drawn₁.held target ht
  refine .bind (draws_giveValue ht₁ _) sound₁ fun s₂ sound₂ drawn₂ => ?_
  have ht₂ := drawn₂.held target ht₁
  refine .bind (draws_giveRepetition sound₂ ht₂ _) sound₂ fun s₃ sound₃ drawn₃ => ?_
  have ht₃ := drawn₃.held target ht₂
  have hs₃ : s₃.element source = w.store.element source :=
    ((drawn₁.trans drawn₂).trans drawn₃).others source hs hne
  refine .bind (.read (draws_addClasses ht₃ _)) sound₃ fun s₄ sound₄ drawn₄ => ?_
  have hs₄ : s₄.element source = w.store.element source :=
    (((drawn₁.trans drawn₂).trans drawn₃).trans drawn₄).others source hs hne
  have h := draws_replaceAttributes (w := { w with store := s₄ }) sound₄ (drawn₄.held target ht₃)
    (Attribute.layer (s₄.element target).attributes (s₄.element source).attributes)
  have hclasses : (s₃.data source).classes = (w.store.element source).classes :=
    congrArg Element.classes hs₃
  simp only [drawn₄.element, hs₄, hclasses, drawn₃.element, drawn₂.element, drawn₁.element] at h
  refine .read ?_
  simp only [drawn₄.element, hs₄, hclasses, drawn₃.element, drawn₂.element, drawn₁.element]
  exact h

end Store

end SnippetTree
