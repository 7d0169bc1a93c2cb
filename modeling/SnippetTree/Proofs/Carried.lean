import SnippetTree.Proofs.Leading
import SnippetTree.Proofs.Planting

namespace SnippetTree

/-- The identity of a record of either kind. -/
abbrev RecordId := AttributeId ⊕ RepetitionId

def Data.records (d : Data) : List RecordId :=
  d.attributes.values.map .inl ++ d.repetition.toList.map .inr

theorem Data.inl_mem_records {d : Data} {a : AttributeId} :
    .inl a ∈ d.records ↔ a ∈ d.attributes.values := by simp [records]

theorem Data.inr_mem_records {d : Data} {r : RepetitionId} :
    .inr r ∈ d.records ↔ r ∈ d.repetition := by simp [records]

theorem Data.forall_mem_records {d d' : Data} {P : RecordId → Prop}
    (attributes : ∀ a ∈ d'.attributes.values, a ∈ d.attributes.values ∨ P (.inl a))
    (repetition : ∀ r ∈ d'.repetition, r ∈ d.repetition ∨ P (.inr r)) :
    ∀ x ∈ d'.records, x ∈ d.records ∨ P x := by
  rintro (a | r) hx
  · exact (attributes a (inl_mem_records.mp hx)).imp_left inl_mem_records.mpr
  · exact (repetition r (inr_mem_records.mp hx)).imp_left inr_mem_records.mpr

namespace Store

variable {σ ρ : Type} {s s' s'' : Store} {n m : NodeId} {ns ms : List NodeId} {x : RecordId}

def Holds (s : Store) : RecordId → Prop
  | .inl a => s.hasAttribute a
  | .inr r => s.hasRepetition r

theorem mem_of_mem_held {r : RepetitionId} {repetition : Option RepetitionId}
    (h : r ∈ s.held repetition) : r ∈ repetition := (Option.mem_filter_iff.mp h).1

def records (s : Store) (n : NodeId) : List RecordId := (s.data n).records

theorem records_congr (data : s'.data n = s.data n) : s'.records n = s.records n :=
  congrArg Data.records data

theorem data_of_not_mem (h : n ∉ s) : s.data n = {} := by
  simp only [mem_iff, not_lt] at h
  simp [data, node, h]

theorem records_of_not_mem (h : n ∉ s) : s.records n = [] := by
  rw [records, data_of_not_mem h]
  rfl

theorem mem_of_mem_records (h : x ∈ s.records n) : n ∈ s := by
  by_contra hn
  simp [records_of_not_mem hn] at h

theorem Grounded.holds (h : s.Grounded) (hx : x ∈ s.records n) : s.Holds x := by
  cases x with
  | inl a => exact h.attributes n a (Data.inl_mem_records.mp hx)
  | inr r => exact h.repetitions n r (Data.inr_mem_records.mp hx)

/-- All records of the first store are in the second one, as they are. -/
structure Retains (s s' : Store) : Prop where
  attributes : ∀ a, s.hasAttribute a → s'.hasAttribute a ∧ s'.attributeAt a = s.attributeAt a
  repetitions : ∀ r, s.hasRepetition r → s'.hasRepetition r ∧ s'.repetitionAt r = s.repetitionAt r

namespace Retains

theorem refl (s : Store) : s.Retains s := ⟨fun _ ha => ⟨ha, rfl⟩, fun _ hr => ⟨hr, rfl⟩⟩

theorem trans (h : s.Retains s') (h' : s'.Retains s'') : s.Retains s'' where
  attributes := by
    intro a ha
    obtain ⟨held, same⟩ := h.attributes a ha
    obtain ⟨held', same'⟩ := h'.attributes a held
    exact ⟨held', same'.trans same⟩
  repetitions := by
    intro r hr
    obtain ⟨held, same⟩ := h.repetitions r hr
    obtain ⟨held', same'⟩ := h'.repetitions r held
    exact ⟨held', same'.trans same⟩

theorem of_eq (attributes : s'.attributes = s.attributes)
    (repetitions : s'.repetitions = s.repetitions) : s.Retains s' := by
  refine ⟨fun a ha => ?_, fun r hr => ?_⟩
  · rw [hasAttribute, attributeAt, attributeAt, attributes]
    exact ⟨ha, rfl⟩
  · rw [hasRepetition, repetitionAt, repetitionAt, repetitions]
    exact ⟨hr, rfl⟩

theorem of_altersNodes (h : s.AltersNodes s') : s.Retains s' := by
  obtain ⟨nodes, _, rfl⟩ := h
  exact .of_eq rfl rfl

theorem addAttribute (s : Store) (record : Attribute) :
    s.Retains ((Edit.addAttribute record).apply s) :=
  ⟨(keepsRecords_addAttribute record).attributes, fun _ hr => ⟨hr, rfl⟩⟩

theorem addRepetition (s : Store) (record : Repetition) :
    s.Retains ((Edit.addRepetition record).apply s) := by
  refine ⟨fun _ ha => ⟨ha, rfl⟩, fun r hr => ?_⟩
  have hlt : r.index < s.repetitions.size := by simpa [hasRepetition] using hr
  constructor
  · simp only [hasRepetition, Edit.apply, Array.size_push, decide_eq_true_eq]
    omega
  · rw [repetitionAt_addRepetition, if_neg]
    rintro rfl
    simp [freshRepetition] at hlt

theorem holds (h : s.Retains s') (hx : s.Holds x) : s'.Holds x := by
  cases x with
  | inl a => exact (h.attributes a hx).1
  | inr r => exact (h.repetitions r hx).1

theorem not_holds (h : s.Retains s') (hx : ¬s'.Holds x) : ¬s.Holds x := fun hs => hx (h.holds hs)

end Retains

theorem not_holds_freshAttribute (s : Store) : ¬s.Holds (.inl s.freshAttribute) := by
  simp [Holds, hasAttribute, freshAttribute]

theorem not_holds_freshRepetition (s : Store) : ¬s.Holds (.inr s.freshRepetition) := by
  simp [Holds, hasRepetition, freshRepetition]

/-- No two of the nodes carry the same record. -/
def Unshared (s : Store) (ns : List NodeId) : Prop :=
  ∀ n ∈ ns, ∀ m ∈ ns, n ≠ m → ∀ x ∈ s.records n, x ∉ s.records m

/-- Two nodes that carry the same record in the second store both carried it in the first one. -/
def Severs (s s' : Store) : Prop :=
  ∀ n m, n ≠ m → ∀ x ∈ s'.records n, x ∈ s'.records m → x ∈ s.records n ∧ x ∈ s.records m

namespace Severs

theorem refl (s : Store) : s.Severs s := fun _ _ _ _ hn hm => ⟨hn, hm⟩

theorem trans (h : s.Severs s') (h' : s'.Severs s'') : s.Severs s'' := by
  intro n m hne x hn hm
  obtain ⟨hn', hm'⟩ := h' n m hne x hn hm
  exact h n m hne x hn' hm'

theorem of_data (data : ∀ n, s'.data n = s.data n) : s.Severs s' := by
  intro n m _ x hn hm
  rw [records_congr (data n)] at hn
  rw [records_congr (data m)] at hm
  exact ⟨hn, hm⟩

theorem unshared (h : s.Severs s') (unshared : s.Unshared ns) : s'.Unshared ns := by
  intro n hn m hm hne x hx hx'
  obtain ⟨hnx, hmx⟩ := h n m hne x hx hx'
  exact unshared n hn m hm hne x hnx hmx

theorem unshared_of_new (h : s.Severs s') (new : ∀ n ∈ ns, n ∉ s) : s'.Unshared ns := by
  intro n hn m _ hne x hx hx'
  exact new n hn (mem_of_mem_records (h n m hne x hx hx').1)

end Severs

/-- The second store is the first one with other data of a single node, which carries no record of
the first store that it did not carry before. -/
structure Dresses (s s' : Store) (n : NodeId) : Prop where
  held : ∀ m ∈ s, m ∈ s'
  links : ∀ m, s'.links m = s.links m
  data : ∀ m, m ≠ n → s'.data m = s.data m
  records : ∀ x ∈ s'.records n, x ∈ s.records n ∨ ¬s.Holds x
  retains : s.Retains s'

namespace Dresses

theorem refl (s : Store) (n : NodeId) : s.Dresses s n :=
  ⟨fun _ hm => hm, fun _ => rfl, fun _ _ => rfl, fun _ hx => Or.inl hx, .refl s⟩

theorem severs (h : s.Dresses s' n) (grounded : s.Grounded) : s.Severs s' := by
  have other : ∀ m k, m ≠ k → k ≠ n → ∀ x ∈ s'.records m, x ∈ s'.records k →
      x ∈ s.records m ∧ x ∈ s.records k := by
    intro m k hne hk x hm hx
    rw [records_congr (h.data k hk)] at hx
    refine ⟨?_, hx⟩
    by_cases he : m = n
    · subst he
      exact (h.records x hm).resolve_right fun hnew => hnew (grounded.holds hx)
    · rwa [records_congr (h.data m he)] at hm
  intro m k hne x hm hk
  by_cases he : k = n
  · exact (other k m (Ne.symm hne) (fun hm' => hne (hm'.trans he.symm)) x hk hm).symm
  · exact other m k hne he x hm hk

theorem modifyData (h : s.Dresses s' n) {f : Data → Data}
    (records : ∀ x ∈ (f (s'.data n)).records, x ∈ s'.records n ∨ ¬s.Holds x) :
    s.Dresses (s'.modifyData n f) n where
  held := fun m hm => mem_modifyNode.mpr (h.held m hm)
  links := fun m => (links_modifyData ..).trans (h.links m)
  data := by
    intro m hm
    rw [data_modifyData, if_neg fun hn => hm hn.1]
    exact h.data m hm
  records := by
    intro x hx
    rw [Store.records, data_modifyData] at hx
    split at hx
    next => exact (records x hx).elim (h.records x) Or.inr
    next => exact h.records x hx
  retains := h.retains.trans (.of_eq rfl rfl)

theorem addClasses (h : s.Dresses s' n) (names : List String) :
    s.Dresses (names.foldl (·.addClass n) s') n := by
  induction names generalizing s' with
  | nil => exact h
  | cons name names ih =>
    refine ih (h.modifyData fun x hx => Or.inl ?_)
    split at hx <;> exact hx

theorem setAttribute (h : s.Dresses s' n) {a : AttributeId} (new : ¬s.Holds (.inl a)) :
    s.Dresses (s'.setAttribute n a) n := by
  unfold Store.setAttribute
  simp only
  split
  next => exact h
  next =>
    split
    next => exact h.addClasses _
    next =>
      refine h.modifyData (Data.forall_mem_records (fun b hb => ?_) fun _ hr => Or.inl hr)
      rcases Keyed.mem_values_insert hb with rfl | hb
      · exact Or.inr new
      · exact Or.inl hb

theorem of_retains (h : s.Dresses s' n) (nodes : s''.nodes = s'.nodes) (retains : s'.Retains s'') :
    s.Dresses s'' n := by
  have hnode : ∀ m, s''.node m = s'.node m := fun m => by rw [node, node, nodes]
  refine ⟨fun m hm => ?_, fun m => ?_, fun m hm => ?_, fun x hx => ?_, h.retains.trans retains⟩
  · rw [mem_iff, nodes]
    exact h.held m hm
  · rw [Store.links, hnode]
    exact h.links m
  · rw [Store.data, hnode]
    exact h.data m hm
  · rw [Store.records, Store.data, hnode] at hx
    exact h.records x hx

end Dresses

/-- The second store has the nodes and the records of the first one, with the same data. -/
structure Preserves (s s' : Store) : Prop where
  held : ∀ m ∈ s, m ∈ s'
  data : ∀ m ∈ s, s'.data m = s.data m
  retains : s.Retains s'

theorem Preserves.refl (s : Store) : s.Preserves s := ⟨fun _ hm => hm, fun _ _ => rfl, .refl s⟩

theorem Preserves.trans (h : s.Preserves s') (h' : s'.Preserves s'') : s.Preserves s'' :=
  ⟨fun m hm => h'.held m (h.held m hm),
    fun m hm => (h'.data m (h.held m hm)).trans (h.data m hm), h.retains.trans h'.retains⟩

/-- The second store is the first one with more nodes, whose records are new and not shared. -/
structure Adds (s s' : Store) : Prop where
  preserves : s.Preserves s'
  new : ∀ m, m ∉ s → ∀ x ∈ s'.records m, ¬s.Holds x
  severs : s.Severs s'

namespace Adds

theorem refl (s : Store) : s.Adds s :=
  ⟨.refl s, fun _ hm _ hx => absurd (mem_of_mem_records hx) hm, .refl s⟩

theorem trans (h : s.Adds s') (h' : s'.Adds s'') : s.Adds s'' := by
  refine ⟨h.preserves.trans h'.preserves, fun m hm x hx => ?_, h.severs.trans h'.severs⟩
  by_cases hm' : m ∈ s'
  · rw [records_congr (h'.preserves.data m hm')] at hx
    exact h.new m hm x hx
  · exact h.preserves.retains.not_holds (h'.new m hm' x hx)

theorem of_relinked (h : s.Relinked s') : s.Adds s' := by
  refine ⟨⟨fun m hm => h.mem_iff.mpr hm, fun m _ => h.data m, .of_altersNodes h.alters⟩,
    fun m hm x hx => ?_, .of_data h.data⟩
  rw [records_congr (h.data m)] at hx
  exact absurd (mem_of_mem_records hx) hm

end Adds

theorem Dresses.adds (h : s.Dresses s' n) (grounded : s.Grounded) (hn : n ∉ s) : s.Adds s' := by
  refine ⟨⟨h.held, fun m hm => h.data m fun he => hn (he ▸ hm), h.retains⟩, fun m hm x hx => ?_,
    h.severs grounded⟩
  by_cases he : m = n
  · subst he
    exact (h.records x hx).resolve_left fun hs => hn (mem_of_mem_records hs)
  · rw [records_congr (h.data m he)] at hx
    exact absurd (mem_of_mem_records hx) hm

end Store

namespace Script

open Store

variable {σ : Type} {s : Store} {n : NodeId}

theorem leads_newAttribute (record : Attribute) {P : Store → Prop} (retains : ∀ s', P s' → s.Retains s')
    (keeps : ∀ s', P s' → P ((Edit.addAttribute record).apply s')) :
    Leads P (newAttribute record : Script σ Empty AttributeId) fun a s' =>
      P s' ∧ ¬s.Holds (.inl a) := by
  rintro w _ _ start ⟨⟩
  exact ⟨keeps _ start, (retains _ start).not_holds (not_holds_freshAttribute _)⟩

theorem leads_newRepetition (record : Repetition) {P : Store → Prop}
    (retains : ∀ s', P s' → s.Retains s')
    (keeps : ∀ s', P s' → P ((Edit.addRepetition record).apply s')) :
    Leads P (newRepetition record : Script σ Empty RepetitionId) fun r s' =>
      P s' ∧ ¬s.Holds (.inr r) := by
  rintro w _ _ start ⟨⟩
  exact ⟨keeps _ start, (retains _ start).not_holds (not_holds_freshRepetition _)⟩

theorem leads_setRepetition (n : NodeId) (record : Repetition) :
    Leads (s.Dresses · n) (newRepetition record >>= fun r => perform (.setRepetition n (some r)) :
      Script σ Empty Unit) fun _ => (s.Dresses · n) := by
  refine (leads_newRepetition record (fun _ h => h.retains) fun s' h =>
    h.of_retains rfl (.addRepetition s' record)).bind fun r => ?_
  refine leads_perform fun s' h _ =>
    h.1.modifyData (f := ({ · with repetition := s'.held (some r) }))
      (Data.forall_mem_records (fun _ ha => Or.inl ha) fun r' hr => ?_)
  exact Or.inr (Option.some.inj (mem_of_mem_held hr) ▸ h.2)

theorem leads_layerAttributes (source target : NodeId) :
    Leads (s.Dresses · target) (layerAttributes source target : Script σ Empty Unit) fun _ =>
      (s.Dresses · target) := by
  refine leads_read_bind fun records => (leads_mapM (fun record => leads_newAttribute record
    (fun _ h => h.retains) fun s' h => h.of_retains rfl (.addAttribute s' record)) records).bind
      fun as => ?_
  refine leads_of_fact fun new => .bind (Q := fun _ => (s.Dresses · target)) ?_ fun _ =>
    leads_forM fun a ha => leads_perform fun _ h _ => h.setAttribute (new a ha)
  refine leads_perform fun s' h _ =>
    h.modifyData (f := ({ · with attributes := ∅ }))
      (Data.forall_mem_records (fun _ ha => absurd ha List.not_mem_nil) fun _ hr => Or.inl hr)

/-- Whatever the source is, merging only changes the data of the target, to which it gives records
that are new. -/
theorem leads_merge (source target : NodeId) :
    Leads (s.Dresses · target) (merge source target : Script σ Empty Unit) fun _ =>
      (s.Dresses · target) := by
  have setFlag : Leads (s.Dresses · target)
      (perform (.setSelfClosing target true) : Script σ Empty Unit) fun _ => (s.Dresses · target) :=
    leads_perform fun _ h _ =>
      h.modifyData (f := ({ · with selfClosing := true })) fun _ hx => Or.inl hx
  have setValue : ∀ value, Leads (s.Dresses · target)
      (perform (.setValue target value) : Script σ Empty Unit) fun _ => (s.Dresses · target) :=
    fun value => leads_perform fun _ h _ =>
      h.modifyData (f := ({ · with value })) fun _ hx => Or.inl hx
  have pass : Leads (s.Dresses · target) (pure () : Script σ Empty Unit) fun _ =>
      (s.Dresses · target) := leads_pure fun _ h => h
  rw [Store.merge_eq]
  refine leads_read_bind fun e => .bind (Q := fun _ => (s.Dresses · target)) ?_ fun _ =>
    .bind (Q := fun _ => (s.Dresses · target)) ?_ fun _ =>
      .bind (Q := fun _ => (s.Dresses · target)) ?_ fun _ =>
        .bind (Q := fun _ => (s.Dresses · target)) ?_ fun _ => ?_
  · split
    · exact setFlag
    · exact pass
  · split
    · exact setValue _
    · exact pass
  · cases e.repetition with
    | none => exact pass
    | some record => exact leads_setRepetition target record
  · exact leads_read_bind fun names => leads_forM fun c _ => leads_perform fun s' h _ =>
      h.addClasses [c]
  · exact leads_layerAttributes source target

theorem leads_newElement (e : Element) :
    Leads (· = s) (newElement e : Script σ Empty NodeId) fun n s' =>
      s.Dresses s' s.freshNode ∧ n = s.freshNode := by
  let made : Store → Prop := fun s' => s.Dresses s' s.freshNode ∧ s'.nodes = s.nodes
  have attributes : Leads (· = s) (e.attributes.mapM newAttribute : Script σ Empty _) fun as s' =>
      made s' ∧ ∀ a ∈ as, ¬s.Holds (.inl a) := by
    refine (leads_mapM (P := made) (fun record => leads_newAttribute record (fun _ h => h.1.retains)
      fun s' h => ⟨h.1.of_retains rfl (.addAttribute s' record), h.2⟩) _).mono ?_ fun _ _ h => h
    rintro _ rfl
    exact ⟨.refl _ _, rfl⟩
  have repetition : Leads made (e.repetition.mapM newRepetition : Script σ Empty _) fun r s' =>
      made s' ∧ ∀ x ∈ r, ¬s.Holds (.inr x) := by
    cases e.repetition with
    | none => exact leads_pure fun _ h => ⟨h, by simp⟩
    | some record =>
      refine (leads_newRepetition record (fun _ h => h.1.retains) fun s' h =>
        ⟨h.1.of_retains rfl (.addRepetition s' record), h.2⟩).bind fun x => ?_
      exact leads_pure fun _ h => ⟨h.1, by simpa using h.2⟩
  refine attributes.bind fun as => leads_of_fact fun newas => repetition.bind fun r =>
    leads_of_fact fun newr => (leads_read _).bind fun n => ?_
  have add : Leads (fun s' => made s' ∧ n = s'.freshNode)
      (perform (.addNode e.name e.value e.selfClosing r) : Script σ Empty Unit)
      fun _ s' => s.Dresses s' s.freshNode ∧ n = s.freshNode := by
    refine leads_perform fun s' h _ => ?_
    obtain ⟨⟨h, hnodes⟩, rfl⟩ := h
    have hfresh : s'.freshNode = s.freshNode := by rw [freshNode, freshNode, hnodes]
    refine ⟨⟨fun m hm => extends_addNode.held m (h.held m hm),
      fun m => (links_addNode m).trans (h.links m), fun m hm => ?_, fun x hx => ?_,
      h.retains.trans (.of_eq rfl rfl)⟩, hfresh⟩
    · rw [data_addNode, if_neg (hfresh ▸ hm)]
      exact h.data m hm
    · rw [Store.records, data_addNode, if_pos hfresh.symm] at hx
      refine Data.forall_mem_records (d := s.data s.freshNode) (P := fun x => ¬s.Holds x)
        (fun _ ha => absurd ha List.not_mem_nil) (fun x hx => ?_) x hx
      exact Or.inr (newr x (mem_of_mem_held hx))
  refine add.bind fun _ => leads_of_fact ?_
  rintro rfl
  refine .bind (Q := fun _ => (s.Dresses · s.freshNode)) ?_ fun _ =>
    .bind (Q := fun _ => (s.Dresses · s.freshNode)) ?_ fun _ => leads_pure fun _ h => ⟨h, rfl⟩
  · exact leads_forM fun a ha => leads_perform fun _ h _ => h.setAttribute (newas a ha)
  · exact leads_forM fun c _ => leads_perform fun _ h _ => h.addClasses [c]

theorem leads_plant_node {below : List (Outline Element)}
    (under : ∀ n, Leads (fun s' => s'.Sound ∧ s.Adds s') (plantUnder n below : Script σ Empty Unit)
      fun _ s' => s'.Sound ∧ s.Adds s') (e : Element) :
    Leads (fun s' => s'.Sound ∧ s.Adds s') (plant (.node e below) : Script σ Empty NodeId)
      fun _ s' => s'.Sound ∧ s.Adds s' := by
  refine .bind (Q := fun _ s' => s'.Sound ∧ s.Adds s') (.sound fun w n w' start hrun => ?_) fun n =>
    (under n).bind fun _ => leads_pure fun _ h => h
  have dressed := (leads_newElement e w n w' rfl hrun).1
  exact start.2.trans (dressed.adds start.1.grounded w.store.not_mem_freshNode)

theorem leads_plantUnder (ts : List (Outline Element)) (n : NodeId) :
    Leads (fun s' => s'.Sound ∧ s.Adds s') (plantUnder n ts : Script σ Empty Unit) fun _ s' =>
      s'.Sound ∧ s.Adds s' := by
  induction ts using Outline.forest_induction generalizing n with
  | nil => exact leads_pure fun _ h => h
  | cons e below ts ihc iht =>
    refine (leads_plant_node ihc e).bind fun c =>
      .bind (Q := fun _ s' => s'.Sound ∧ s.Adds s') ?_ fun _ => iht n
    exact leads_perform fun s' h ok =>
      ⟨Edit.sound_apply h.1 ok, h.2.trans (.of_relinked (.append s' n c))⟩

/-- A planted tree has new records, which its nodes do not share. -/
theorem leads_plant (t : Outline Element) :
    Leads (fun s' => s'.Sound ∧ s.Adds s') (plant t : Script σ Empty NodeId) fun _ s' =>
      s'.Sound ∧ s.Adds s' := by
  obtain ⟨e, below⟩ := t
  exact leads_plant_node (leads_plantUnder below) e

end Script

end SnippetTree
