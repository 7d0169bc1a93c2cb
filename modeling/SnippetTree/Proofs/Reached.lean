import SnippetTree.Proofs.Placing
import SnippetTree.Script.Run

namespace SnippetTree

namespace Keyed
variable {β : Type}

theorem mem_entries_insert {m : Keyed β} {key : String} {value : β} {entry : String × β}
    (h : entry ∈ (m.insert key value).entries) : entry = (key, value) ∨ entry ∈ m.entries := by
  have hput : ∀ entries : List (String × β), entry ∈ put key value entries →
      entry = (key, value) ∨ entry ∈ entries := by
    intro entries
    induction entries with
    | nil => simp [put]
    | cons first rest ih =>
      unfold put
      split
      next => simp only [List.mem_cons]; grind
      next => simp only [List.mem_cons]; grind
  exact hput m.entries h

theorem mem_values_insert {m : Keyed β} {key : String} {value b : β}
    (h : b ∈ (m.insert key value).values) : b = value ∨ b ∈ m.values := by
  obtain ⟨entry, hentry, rfl⟩ := List.mem_map.mp h
  rcases mem_entries_insert hentry with rfl | hentry
  · exact Or.inl rfl
  · exact Or.inr (List.mem_map_of_mem hentry)

theorem mem_values_erase {m : Keyed β} {key : String} {b : β}
    (h : b ∈ (m.erase key).values) : b ∈ m.values :=
  (List.filter_sublist.map Prod.snd).subset h

end Keyed

namespace Store

variable {s s' : Store}

/-- Every record that a node carries is held by the store. -/
structure Grounded (s : Store) : Prop where
  attributes : ∀ n, ∀ a ∈ (s.data n).attributes.values, s.hasAttribute a
  repetitions : ∀ n, ∀ r ∈ (s.data n).repetition, s.hasRepetition r

/-- A store whose links and references are all in order. -/
structure Sound (s : Store) : Prop where
  linked : s.WellLinked
  grounded : s.Grounded

theorem WellLinked.congr (h : s.WellLinked) (links : ∀ n, s'.links n = s.links n) :
    s'.WellLinked := by
  have above : s'.Above = s.Above := by simp only [Above, links]
  refine ⟨fun p => ?_, fun n => links n ▸ h.alone n, fun n => above ▸ h.acyclic n⟩
  have hs : s'.Siblings p (s.children p) :=
    (h.siblings p).congr (by rw [links]) (by rw [links])
      (fun d _ => by rw [links]; exact ⟨rfl, rfl, rfl⟩) (fun d hd => by rwa [links] at hd)
  rwa [hs.children_eq]

theorem WellLinked.children_congr (h : s.WellLinked)
    (links : ∀ n, s'.links n = s.links n) (p : NodeId) : s'.children p = s.children p :=
  ((h.siblings p).congr (by rw [links]) (by rw [links])
    (fun d _ => by rw [links]; exact ⟨rfl, rfl, rfl⟩)
    (fun d hd => by rwa [links] at hd)).children_eq

theorem Grounded.mono (h : s.Grounded)
    (attributes : ∀ n, ∀ a ∈ (s'.data n).attributes.values,
      a ∈ (s.data n).attributes.values ∨ s'.hasAttribute a)
    (repetitions : ∀ n, ∀ r ∈ (s'.data n).repetition,
      r ∈ (s.data n).repetition ∨ s'.hasRepetition r)
    (heldAttributes : s.attributes.size ≤ s'.attributes.size)
    (heldRepetitions : s.repetitions.size ≤ s'.repetitions.size) : s'.Grounded := by
  refine ⟨fun n a ha => ?_, fun n r hr => ?_⟩
  · rcases attributes n a ha with ha | ha
    · have := h.attributes n a ha
      simp only [hasAttribute, decide_eq_true_eq] at this ⊢
      omega
    · exact ha
  · rcases repetitions n r hr with hr | hr
    · have := h.repetitions n r hr
      simp only [hasRepetition, decide_eq_true_eq] at this ⊢
      omega
    · exact hr

@[simp] theorem data_join {p m : NodeId} {previous next : Option NodeId} :
    (s.join p previous next).data m = s.data m := by
  cases previous <;> cases next <;> simp [join]

@[simp] theorem data_detach {c m : NodeId} : (s.detach c).data m = s.data m := by
  cases hp : (s.links c).parent with
  | none => rw [detach_of_parent_eq_none hp]
  | some p => simp [detach_of_parent hp]

@[simp] theorem data_place {p c m : NodeId} {previous next : Option NodeId} :
    (s.place p c previous next).data m = s.data m := by
  unfold place
  split <;> simp

@[simp] theorem data_append {p c m : NodeId} : (s.append p c).data m = s.data m := by
  simp [append]

@[simp] theorem data_insertBefore {p c r m : NodeId} :
    (s.insertBefore p c r).data m = s.data m := by
  unfold insertBefore
  split <;> simp

/-- Nothing but nodes changes, and none is made. -/
def AltersNodes (s s' : Store) : Prop :=
  ∃ nodes : Array Node, nodes.size = s.nodes.size ∧ s' = { s with nodes }

theorem AltersNodes.refl (s : Store) : s.AltersNodes s := ⟨s.nodes, rfl, rfl⟩

theorem AltersNodes.trans {s s' s'' : Store} (h : s.AltersNodes s') (h' : s'.AltersNodes s'') :
    s.AltersNodes s'' := by
  obtain ⟨nodes, hsize, rfl⟩ := h
  obtain ⟨nodes', hsize', rfl⟩ := h'
  exact ⟨nodes', hsize'.trans hsize, rfl⟩

theorem altersNodes_modifyNode (s : Store) (n : NodeId) (f : Node → Node) :
    s.AltersNodes (s.modifyNode n f) :=
  ⟨_, Array.size_modify, rfl⟩

theorem altersNodes_join (s : Store) (p : NodeId) (previous next : Option NodeId) :
    s.AltersNodes (s.join p previous next) := by
  cases previous <;> cases next <;> simp only [join] <;>
    exact (altersNodes_modifyNode ..).trans (altersNodes_modifyNode ..)

theorem altersNodes_detach (s : Store) (c : NodeId) : s.AltersNodes (s.detach c) := by
  cases hp : (s.links c).parent with
  | none => rw [detach_of_parent_eq_none hp]; exact .refl s
  | some p =>
    rw [detach_of_parent hp]
    exact (altersNodes_join ..).trans (altersNodes_modifyNode ..)

theorem altersNodes_place (s : Store) (p c : NodeId) (previous next : Option NodeId) :
    s.AltersNodes (s.place p c previous next) := by
  unfold place
  split
  next => exact (altersNodes_modifyNode ..).trans ((altersNodes_join ..).trans (altersNodes_join ..))
  next => exact .refl s

theorem altersNodes_append (s : Store) (p c : NodeId) : s.AltersNodes (s.append p c) :=
  (altersNodes_detach ..).trans (altersNodes_place ..)

theorem altersNodes_insertBefore (s : Store) (p c r : NodeId) :
    s.AltersNodes (s.insertBefore p c r) := by
  unfold insertBefore
  split
  next => exact .refl s
  next => exact (altersNodes_detach ..).trans (altersNodes_place ..)

theorem Grounded.altersNodes (h : s.Grounded) (data : ∀ n, s'.data n = s.data n)
    (hr : s.AltersNodes s') : s'.Grounded := by
  obtain ⟨nodes, _, rfl⟩ := hr
  exact h.mono (fun n _ ha => Or.inl (data n ▸ ha)) (fun n _ hr => Or.inl (data n ▸ hr)) le_rfl
    le_rfl

theorem Grounded.modifyData {n : NodeId} {f : Data → Data} (h : s.Grounded)
    (attributes : ∀ a ∈ (f (s.data n)).attributes.values,
      a ∈ (s.data n).attributes.values ∨ s.hasAttribute a)
    (repetitions : ∀ r ∈ (f (s.data n)).repetition,
      r ∈ (s.data n).repetition ∨ s.hasRepetition r) : (s.modifyData n f).Grounded := by
  refine h.mono (fun m a ha => ?_) (fun m r hr => ?_) le_rfl le_rfl
  · rw [data_modifyData] at ha
    split at ha
    next hm => exact hm.1 ▸ attributes a ha
    next => exact Or.inl ha
  · rw [data_modifyData] at hr
    split at hr
    next hm => exact hm.1 ▸ repetitions r hr
    next => exact Or.inl hr

theorem hasRepetition_of_mem_held {repetition : Option RepetitionId} {r : RepetitionId}
    (hr : r ∈ s.held repetition) : s.hasRepetition r := by
  simp only [held, Option.mem_def, Option.filter_eq_some_iff] at hr
  exact hr.2

theorem Grounded.addClass {n : NodeId} {name : String} (h : s.Grounded) :
    (s.addClass n name).Grounded := by
  refine h.modifyData (fun a ha => Or.inl ?_) fun r hr => Or.inl ?_
  · split at ha <;> exact ha
  · split at hr <;> exact hr

theorem Grounded.addClasses {n : NodeId} {names : List String} (h : s.Grounded) :
    (names.foldl (·.addClass n) s).Grounded := by
  induction names generalizing s with
  | nil => exact h
  | cons name names ih => exact ih h.addClass

theorem Grounded.setAttribute {n : NodeId} {a : AttributeId} (h : s.Grounded) :
    (s.setAttribute n a).Grounded := by
  unfold Store.setAttribute
  simp only [Bool.not_eq_true']
  split
  next => exact h
  next ha =>
    split
    next => exact h.addClasses
    next =>
      refine h.modifyData (fun b hb => ?_) fun r hr => Or.inl hr
      rcases Keyed.mem_values_insert hb with rfl | hb
      · exact Or.inr (by simpa using ha)
      · exact Or.inl hb

theorem Grounded.congr (h : s.Grounded) (data : ∀ n, s'.data n = s.data n)
    (heldAttributes : s.attributes.size ≤ s'.attributes.size)
    (heldRepetitions : s.repetitions.size ≤ s'.repetitions.size) : s'.Grounded :=
  h.mono (fun n _ ha => Or.inl (data n ▸ ha)) (fun n _ hr => Or.inl (data n ▸ hr)) heldAttributes
    heldRepetitions

theorem node_push (s : Store) (made : Node) (n : NodeId) :
    ({ s with nodes := s.nodes.push made } : Store).node n =
      if n = s.freshNode then made else s.node n := by
  obtain ⟨i⟩ := n
  simp only [node, freshNode, NodeId.mk.injEq, Array.getD_eq_getD_getElem?, Array.getElem?_push]
  split <;> simp

theorem data_addNode {name value : Option String} {selfClosing : Bool}
    {repetition : Option RepetitionId} (n : NodeId) :
    ((Edit.addNode name value selfClosing repetition).apply s).data n =
      if n = s.freshNode then { name, value, selfClosing, repetition := s.held repetition }
      else s.data n := by
  simp only [Edit.apply, data, node_push]
  split <;> rfl

theorem links_addNode {name value : Option String} {selfClosing : Bool}
    {repetition : Option RepetitionId} (n : NodeId) :
    ((Edit.addNode name value selfClosing repetition).apply s).links n = s.links n := by
  simp only [Edit.apply, links, node_push]
  split
  next hn => simp [hn, node, freshNode]
  next => rfl

@[simp] theorem links_addClass {n m : NodeId} {name : String} :
    (s.addClass n name).links m = s.links m := links_modifyData ..

@[simp] theorem links_addClasses {n m : NodeId} {names : List String} :
    (names.foldl (·.addClass n) s).links m = s.links m := by
  induction names generalizing s with
  | nil => rfl
  | cons name names ih => exact ih.trans links_addClass

@[simp] theorem links_setAttribute {n m : NodeId} {a : AttributeId} :
    (s.setAttribute n a).links m = s.links m := by
  unfold setAttribute
  simp only
  split
  next => rfl
  next => split <;> simp

end Store

theorem Edit.wellLinked_apply {s : Store} (h : s.WellLinked) {e : Edit}
    (ok : e.refusal? s = none) : (e.apply s).WellLinked := by
  cases e with
  | append p c => exact h.append (by simpa [Edit.refusal?] using ok)
  | insertBefore p c reference =>
    cases reference with
    | none => exact h.append (by simpa [Edit.refusal?] using ok)
    | some r => exact h.insertBefore (by simpa [Edit.refusal?] using ok)
  | detach c => exact h.detach
  | addNode => exact h.congr Store.links_addNode
  | setName | setValue | setSelfClosing | setRepetition | setClasses | clearAttributes =>
    exact h.congr fun n => Store.links_modifyData ..
  | removeAttribute => exact h.congr fun n => Store.links_modifyData ..
  | addClass => exact h.congr fun n => Store.links_addClass
  | setAttribute => exact h.congr fun n => Store.links_setAttribute
  | addAttribute | addRepetition | writeAttribute | writeRepetition | addGuard | enter | leave
  | report => exact h.congr fun n => rfl

theorem Edit.grounded_apply {s : Store} (h : s.Grounded) (e : Edit) : (e.apply s).Grounded := by
  cases e with
  | addNode name value selfClosing repetition =>
    refine h.mono (fun n a ha => ?_) (fun n r hr => ?_) le_rfl le_rfl
    · rw [Store.data_addNode] at ha
      split at ha
      next => exact absurd ha List.not_mem_nil
      next => exact Or.inl ha
    · rw [Store.data_addNode] at hr
      split at hr
      next => exact Or.inr (Store.hasRepetition_of_mem_held hr)
      next => exact Or.inl hr
  | addAttribute record => exact h.congr (fun _ => rfl) (by simp [Edit.apply]) le_rfl
  | addRepetition record => exact h.congr (fun _ => rfl) le_rfl (by simp [Edit.apply])
  | writeAttribute a record => exact h.congr (fun _ => rfl) (by simp [Edit.apply]) le_rfl
  | writeRepetition r record => exact h.congr (fun _ => rfl) le_rfl (by simp [Edit.apply])
  | setName | setValue | setSelfClosing | setClasses =>
    simp only [Edit.apply]
    exact h.modifyData (fun _ ha => Or.inl ha) fun _ hr => Or.inl hr
  | setRepetition n repetition =>
    simp only [Edit.apply]
    exact h.modifyData (fun _ ha => Or.inl ha) fun _ hr => Or.inr (Store.hasRepetition_of_mem_held hr)
  | addClass n name => exact h.addClass
  | setAttribute n a => exact h.setAttribute
  | removeAttribute n name =>
    simp only [Edit.apply, Store.removeAttribute]
    refine h.modifyData (fun a ha => Or.inl ?_) fun r hr => Or.inl ?_
    · split at ha
      next => exact ha
      next => exact Keyed.mem_values_erase ha
    · split at hr <;> exact hr
  | clearAttributes n =>
    simp only [Edit.apply]
    exact h.modifyData (fun _ ha => absurd ha List.not_mem_nil) fun _ hr => Or.inl hr
  | append p c => exact h.altersNodes (fun _ => Store.data_append) (s.altersNodes_append p c)
  | insertBefore p c reference =>
    cases reference with
    | none => exact h.altersNodes (fun _ => Store.data_append) (s.altersNodes_append p c)
    | some r =>
      exact h.altersNodes (fun _ => Store.data_insertBefore) (s.altersNodes_insertBefore p c r)
  | detach c => exact h.altersNodes (fun _ => Store.data_detach) (s.altersNodes_detach c)
  | addGuard | enter | leave | report => exact h.congr (fun _ => rfl) le_rfl le_rfl

theorem Edit.sound_apply {s : Store} (h : s.Sound) {e : Edit} (ok : e.refusal? s = none) :
    (e.apply s).Sound :=
  ⟨wellLinked_apply h.linked ok, grounded_apply h.grounded e⟩

namespace Script

variable {σ α : Type}

/-- The stores that a run goes through: one before each edit, and the last. -/
def stores : Script σ Empty α → World σ → List Store
  | done _, w | fail _, w | exhausted, w => [w.store]
  | look next, w => (next w.store).stores w
  | edit e next, w =>
    w.store :: match e.refusal? w.store with
      | some fault => (next (.error fault)).stores w
      | none => (next (.ok ())).stores { w with store := e.apply w.store }
  | host change next, w => (next w.state).stores { w with state := change w.state }
  | ask r _, _ => nomatch r

/-- The stores that a sequence of runs goes through. Each run starts where the one before it ended,
whether that one succeeded, failed or was cut off. -/
def storesOfAll : List (Script σ Empty Unit) → World σ → List Store
  | [], w => [w.store]
  | p :: ps, w => p.stores w ++ storesOfAll ps (p.run w).2

theorem run_store_mem_stores (p : Script σ Empty α) (w : World σ) :
    (p.run w).2.store ∈ p.stores w := by
  induction p generalizing w with
  | done | fail | exhausted => exact List.mem_singleton.mpr rfl
  | look next ih => exact ih w.store w
  | edit e next ih =>
    simp only [run, stores]
    cases e.refusal? w.store <;> exact List.mem_cons_of_mem _ (ih ..)
  | host change next ih => exact ih w.state { w with state := change w.state }
  | ask r _ => exact r.elim

/-- What every edit keeps holds all along a run. -/
theorem stores_invariant {P : Store → Prop}
    (step : ∀ s e, P s → Edit.refusal? s e = none → P (e.apply s)) (p : Script σ Empty α)
    (w : World σ) (start : P w.store) : ∀ s ∈ p.stores w, P s := by
  induction p generalizing w with
  | done | fail | exhausted =>
    intro s hs
    exact List.mem_singleton.mp hs ▸ start
  | look next ih => exact ih w.store w start
  | edit e next ih =>
    intro s hs
    simp only [stores, List.mem_cons] at hs
    rcases hs with rfl | hs
    · exact start
    · split at hs
      next => exact ih _ w start s hs
      next ok => exact ih _ _ (step w.store e start ok) s hs
  | host change next ih => exact ih w.state { w with state := change w.state } start
  | ask r _ => exact r.elim

theorem run_invariant {P : Store → Prop}
    (step : ∀ s e, P s → Edit.refusal? s e = none → P (e.apply s)) {p : Script σ Empty α}
    {w : World σ} (start : P w.store) : P (p.run w).2.store :=
  stores_invariant step p w start _ (run_store_mem_stores p w)

theorem run_sound {p : Script σ Empty α} {w : World σ} (h : w.store.Sound) :
    (p.run w).2.store.Sound :=
  run_invariant (fun _ _ h ok => Edit.sound_apply h ok) h

theorem storesOfAll_invariant {P : Store → Prop}
    (step : ∀ s e, P s → Edit.refusal? s e = none → P (e.apply s))
    (ps : List (Script σ Empty Unit)) (w : World σ) (start : P w.store) :
    ∀ s ∈ storesOfAll ps w, P s := by
  induction ps generalizing w with
  | nil =>
    intro s hs
    exact List.mem_singleton.mp hs ▸ start
  | cons p ps ih =>
    intro s hs
    rcases List.mem_append.mp hs with hs | hs
    · exact stores_invariant step p w start s hs
    · exact ih _ (run_invariant step start) s hs

end Script

theorem Store.wellLinked_empty : Store.WellLinked {} := by
  have hl : ∀ n, Store.links {} n = {} := fun n => Store.links_of_not_mem (by simp [Store.mem_iff])
  have hc : ∀ p, Store.children {} p = [] := fun p => by simp [Store.children, Store.chain]
  refine ⟨fun p => ?_, fun n _ => by simp [hl], fun n => Store.not_above_of_parent_eq_none (by rw [hl])⟩
  rw [hc]
  exact ⟨by rw [hl]; rfl, by rw [hl]; rfl, .nil, by simp, by simp [hl]⟩

theorem Store.sound_empty : Store.Sound {} := by
  have hd : ∀ n, Store.data {} n = {} := fun n => by simp [Store.data, Store.node]
  refine ⟨wellLinked_empty, fun n a ha => ?_, fun n r hr => ?_⟩
  · rw [hd] at ha
    exact absurd ha List.not_mem_nil
  · rw [hd] at hr
    cases hr

/-- Whatever is run, one script after the other and whether they succeed or fail, every store on
the way is well-linked: between any two edits, so also in the middle of a walk or of a resolution.
Making and copying nodes, moving them, merging, walks with any visitors and resolutions with any
templates and handlers all are scripts. -/
theorem wellLinked_of_mem_storesOfAll {σ : Type} (ps : List (Script σ Empty Unit)) (state : σ) :
    ∀ s ∈ Script.storesOfAll ps { store := {}, state }, s.WellLinked :=
  Script.storesOfAll_invariant (fun _ _ h ok => Edit.wellLinked_apply h ok) ps _
    Store.wellLinked_empty

/-- Two nodes are made and one is put below the other. Putting that one below its child is refused,
and the tree stays. -/
theorem wellLinked_of_mem_storesOfAll_refused :
    let ps : List (Script Unit Empty Unit) := [.perform (.addNode (some "a") none false none),
      .perform (.addNode (some "b") none false none), .perform (.append ⟨0⟩ ⟨1⟩),
      .perform (.append ⟨1⟩ ⟨0⟩)]
    ∃ s ∈ (Script.storesOfAll ps { store := {}, state := () }).getLast?,
      s.children ⟨0⟩ = [⟨1⟩] ∧ s.WellLinked := by
  intro ps
  let last : Store := (Script.storesOfAll ps { store := {}, state := () }).getLast (by decide)
  have hlast : last ∈ Script.storesOfAll ps { store := {}, state := () } := List.getLast_mem _
  exact ⟨last, List.getLast_mem_getLast? _, by decide,
    wellLinked_of_mem_storesOfAll ps () last hlast⟩

end SnippetTree
