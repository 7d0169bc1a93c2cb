import SnippetTree.Proofs.Filing
import SnippetTree.Proofs.Obeying
import SnippetTree.Resolution

namespace SnippetTree

namespace Script

variable {σ ρ α : Type}

/-- Wherever it starts, the script writes no class names and no name of an attribute directly. -/
abbrev Careful (p : Script σ ρ α) : Prop := p.Obeys fun s e => ¬e.Overwrites s

theorem careful_newAttribute (record : Attribute) :
    (newAttribute record : Script σ Empty AttributeId).Careful :=
  (obeys_read _).bind fun _ => (obeys_perform fun _ => id).bind fun _ => obeys_pure _

theorem careful_newRepetition (record : Repetition) :
    (newRepetition record : Script σ Empty RepetitionId).Careful :=
  (obeys_read _).bind fun _ => (obeys_perform fun _ => id).bind fun _ => obeys_pure _

theorem careful_newNode (name value : Option String) (selfClosing : Bool)
    (repetition : Option RepetitionId) (attributes : List AttributeId) (classes : List String) :
    (newNode name value selfClosing repetition attributes classes :
      Script σ Empty NodeId).Careful :=
  (obeys_read _).bind fun _ => (obeys_perform fun _ => id).bind fun _ =>
    (obeys_forM (fun _ => obeys_perform fun _ => id) attributes).bind fun _ =>
      (obeys_forM (fun _ => obeys_perform fun _ => id) classes).bind fun _ => obeys_pure _

theorem careful_newElement (e : Element) : (newElement e : Script σ Empty NodeId).Careful := by
  refine (obeys_mapM careful_newAttribute _).bind fun as => .bind ?_ fun r =>
    careful_newNode e.name e.value e.selfClosing r as e.classes
  cases e.repetition with
  | none => exact obeys_pure none
  | some record => exact (careful_newRepetition record).bind fun _ => obeys_pure _

theorem careful_plantUnder (ts : List (Outline Element)) (n : NodeId) :
    (plantUnder n ts : Script σ Empty Unit).Careful := by
  induction ts using Outline.forest_induction generalizing n with
  | nil => exact obeys_pure ()
  | cons e cs ts ihc iht =>
    have first : (plant (.node e cs) : Script σ Empty NodeId).Careful :=
      (careful_newElement e).bind fun m => (ihc m).bind fun _ => obeys_pure _
    exact first.bind fun _ => (obeys_perform fun _ => id).bind fun _ => iht n

theorem careful_plant (t : Outline Element) : (plant t : Script σ Empty NodeId).Careful := by
  obtain ⟨e, cs⟩ := t
  exact (careful_newElement e).bind fun n => (careful_plantUnder cs n).bind fun _ => obeys_pure _

theorem careful_replaceAttributes (n : NodeId) (as : List AttributeId) :
    (replaceAttributes n as : Script σ Empty Unit).Careful :=
  (obeys_perform fun _ => id).bind fun _ => obeys_forM (fun _ => obeys_perform fun _ => id) as

theorem careful_addClassesOf (source target : NodeId) :
    (addClassesOf source target : Script σ Empty Unit).Careful :=
  (obeys_read _).bind fun _ => obeys_forM (fun _ => obeys_perform fun _ => id) _

theorem careful_layerAttributes (source target : NodeId) :
    (layerAttributes source target : Script σ Empty Unit).Careful :=
  (obeys_read _).bind fun records => (obeys_mapM careful_newAttribute records).bind fun as =>
    careful_replaceAttributes target as

theorem careful_merge (source target : NodeId) :
    (merge source target : Script σ Empty Unit).Careful := by
  rw [Store.merge_eq]
  refine (obeys_read _).bind fun e => .bind ?_ fun _ => .bind ?_ fun _ => .bind ?_ fun _ =>
    (careful_addClassesOf source target).bind fun _ => careful_layerAttributes source target
  · split
    next => exact obeys_perform fun _ => id
    next => exact obeys_pure ()
  · split
    next => exact obeys_perform fun _ => id
    next => exact obeys_pure ()
  · cases e.repetition with
    | none => exact obeys_pure ()
    | some record => exact (careful_newRepetition record).bind fun _ => obeys_perform fun _ => id

end Script

/-- What the surroundings do never writes class names or names of attributes directly. -/
structure Surroundings.Careful {σ : Type} (c : Surroundings σ) : Prop where
  lookup : ∀ name, (c.lookup name).Careful
  parse : ∀ text, (c.parse text).Careful
  handle : ∀ h n, (c.handle h n).Careful

namespace Resolution

open Script

variable {σ : Type} {c : Surroundings σ} {g : GuardId} {steps : Nat}
  {resolve : NodeId → Script σ Empty Unit}

theorem careful_splice (tree n : NodeId) : (splice tree n : Script σ Empty Unit).Careful := by
  refine (obeys_read _).bind fun parent => .bind (obeys_drain (fun top => ?_) tree) fun _ =>
    obeys_perform fun _ => id
  cases parent with
  | none => exact obeys_fail _
  | some p => exact (careful_merge n top).bind fun _ => obeys_perform fun _ => id

theorem careful_parseFor (careful : c.Careful) (text name : String) :
    (parseFor c text name).Careful :=
  (careful.parse text).attempt.bind fun out => by
    cases out with
    | ok tree => exact obeys_pure tree
    | error fault => exact obeys_fail _

theorem careful_replaceBy (careful : c.Careful) (resolves : ∀ m, (resolve m).Careful) (n : NodeId)
    (name : String) (x : Snippet) (text : String) :
    (replaceBy c g steps resolve n name x text).Careful := by
  refine (obeys_read _).bind fun parent => ?_
  cases parent with
  | none => exact (obeys_read _).bind fun _ => obeys_fail _
  | some p =>
    refine (obeys_perform fun _ => id).bind fun _ =>
      (careful_parseFor careful text name).bind fun tree => ?_
    have hwithin : (within g x (walk steps tree resolve)).Careful :=
      (obeys_perform fun _ => id).bind fun _ =>
        fun w => (obeys_walk resolves steps tree w).ensuring fun _ => id
    exact hwithin.bind fun _ => (obeys_read _).bind fun last =>
      (obeys_walk resolves steps n).bind fun _ =>
        (obeys_drain (fun _ => obeys_perform fun _ => id) n).bind fun _ => careful_splice tree n

theorem careful_follow (careful : c.Careful) (resolves : ∀ m, (resolve m).Careful) (n : NodeId)
    (name : String) (answer : Answer) : (follow c g steps resolve n name answer).Careful := by
  have active : (isActive g answer : Script σ Empty Bool).Careful := by
    rcases answer with x | ⟨kind, comparable⟩
    · exact obeys_read _
    · cases comparable
      · exact obeys_fail _
      · exact obeys_pure false
  refine active.bind fun active => ?_
  cases active with
  | true => exact obeys_perform fun _ => id
  | false =>
    rcases answer with x | ⟨kind, comparable⟩
    · simp only [Bool.false_eq_true, ↓reduceIte]
      split
      next h _ =>
        exact (obeys_perform fun _ => id).bind fun _ =>
          fun w => (careful.handle h n w).serve resolves
      next text _ => exact careful_replaceBy careful resolves n name x text
    · exact obeys_fail _

theorem careful_under (careful : c.Careful) (depth : Nat) (n : NodeId) :
    (under c g steps depth n).Careful := by
  induction depth generalizing n with
  | zero => exact obeys_exhausted
  | succ depth ih =>
    refine (obeys_read _).bind fun name => ?_
    cases name with
    | none => exact obeys_pure ()
    | some name =>
      refine (careful.lookup name).bind fun answer => ?_
      cases answer with
      | none => exact obeys_pure ()
      | some answer => exact careful_follow careful ih n name answer

end Resolution

theorem careful_resolveAt {σ : Type} {c : Surroundings σ} (careful : c.Careful) (limits : Limits)
    (n : NodeId) : (resolveAt c limits n).Careful :=
  ((Script.obeys_read _).bind fun _ => (Script.obeys_perform fun _ => id).bind fun _ =>
    Script.obeys_pure _).bind fun _ => Resolution.careful_under careful limits.depth n

/-- What may be done with nodes from outside. -/
inductive Operation (σ : Type) where
  | makeNode (name value : Option String) (selfClosing : Bool) (repetition : Option RepetitionId)
      (attributes : List AttributeId) (classes : List String)
  | setAttribute (n : NodeId) (a : AttributeId)
  | nameAttribute (n : NodeId) (name : String) (value : Option String)
  | replaceAttributes (n : NodeId) (attributes : List AttributeId)
  | removeAttribute (n : NodeId) (name : String)
  | addClass (n : NodeId) (className : String)
  | copy (n : NodeId) (deep : Bool)
  | merge (source target : NodeId)
  | mergeClasses (source target : NodeId)
  | mergeAttributes (source target : NodeId)
  | resolveNode (c : Surroundings σ) (limits : Limits) (n : NodeId)
  | resolveTree (current : Script σ Empty (Surroundings σ)) (limits : Limits) (root : NodeId)
  /-- Anything else: making records, moving nodes, walking over them. -/
  | other (p : Script σ Empty Unit)

namespace Operation

open Script

variable {σ : Type}

def script : Operation σ → Script σ Empty Unit
  | makeNode name value selfClosing repetition attributes classes => do
    let _ ← newNode name value selfClosing repetition attributes classes
  | setAttribute n a => perform (.setAttribute n a)
  | nameAttribute n name value => do
    perform (.setAttribute n (← newAttribute { name, value }))
  | replaceAttributes n attributes => Script.replaceAttributes n attributes
  | removeAttribute n name => perform (.removeAttribute n name)
  | addClass n className => perform (.addClass n className)
  | copy n deep => do
    let _ ← Script.copy n deep
  | merge source target => Script.merge source target
  | mergeClasses source target => addClassesOf source target
  | mergeAttributes source target => layerAttributes source target
  | resolveNode c limits n => resolveAt c limits n
  | resolveTree current limits root => resolveBelow current limits root
  | other p => p

/-- What the operation is given writes no class names and no names of attributes directly. -/
def Careful : Operation σ → Prop
  | resolveNode c _ _ => c.Careful
  | resolveTree current _ _ =>
    current.Careful ∧ ∀ w c w', current.run w = (.done c, w') → c.Careful
  | other p => p.Careful
  | _ => True

theorem careful_script {o : Operation σ} (h : o.Careful) : o.script.Careful := by
  cases o with
  | makeNode name value selfClosing repetition attributes classes =>
    exact (careful_newNode name value selfClosing repetition attributes classes).bind fun _ =>
      obeys_pure ()
  | nameAttribute n name value =>
    exact (careful_newAttribute _).bind fun _ => obeys_perform fun _ => id
  | setAttribute | removeAttribute | addClass => exact obeys_perform fun _ => id
  | replaceAttributes n attributes => exact careful_replaceAttributes n attributes
  | copy n deep =>
    exact ((obeys_read _).bind fun t => careful_plant t).bind fun _ => obeys_pure ()
  | merge source target => exact careful_merge source target
  | mergeClasses source target => exact careful_addClassesOf source target
  | mergeAttributes source target => exact careful_layerAttributes source target
  | resolveNode c limits n => exact careful_resolveAt h limits n
  | resolveTree current limits root =>
    refine obeys_walk (fun n => h.1.bind_of_run fun c ⟨w, w', hrun⟩ => ?_) limits.steps root
    exact careful_resolveAt (h.2 w c w' hrun) limits n
  | other p => exact h

end Operation

/-- Whatever operations are run one after the other, whether they succeed or fail, in every store on
the way each node keeps its attributes under their own names, which are all different and never the one
that lists class names, and its class names are not empty and all different. And layering files the
attributes of its target under the names that they have then, however they were filed before. -/
theorem tidy_of_mem_storesOfAll {σ : Type} (os : List (Operation σ)) (careful : ∀ o ∈ os, o.Careful)
    (state : σ) :
    (∀ s ∈ Script.storesOfAll (os.map Operation.script) { store := {}, state }, ∀ n,
      s.Tidy n ∧ (s.element n).WellNamed) ∧
    ∀ (w : World σ) (source target : NodeId), w.store.Sound → target ∈ w.store →
      ∃ s', (Script.layerAttributes source target).run w = (.done (), { w with store := s' }) ∧
        s'.Filed target ∧ (s'.element target).WellNamed := by
  constructor
  · have obeys : ∀ p ∈ os.map Operation.script, p.Careful := by
      intro p hp
      obtain ⟨o, ho, rfl⟩ := List.mem_map.mp hp
      exact Operation.careful_script (careful o ho)
    have step : ∀ s e, (s.Grounded ∧ ∀ n, s.Tidy n) → ¬Edit.Overwrites s e →
        (e.apply s).Grounded ∧ ∀ n, (e.apply s).Tidy n := fun s e h ok =>
      ⟨Edit.grounded_apply h.1 e, fun n => Edit.tidy_apply h.1 (h.2 n) ok⟩
    have start : Store.Grounded {} ∧ ∀ n, Store.Tidy {} n :=
      ⟨Store.sound_empty.grounded, Store.tidy_empty⟩
    intro s hs n
    have tidy : s.Tidy n := (Script.storesOfAll_of_obeys step obeys start s hs).2 n
    exact ⟨tidy, tidy.filed.wellNamed⟩
  · intro w source target sound held
    obtain ⟨s', hrun, _⟩ : Store.Draws w (Script.layerAttributes source target) target _ :=
      .read (Store.draws_replaceAttributes sound held _)
    have filed : s'.Filed target :=
      Script.leads_layerAttributes_filed (P := fun _ => True) source target w () _ trivial hrun
    exact ⟨s', hrun, filed, filed.wellNamed⟩

theorem Surroundings.planting_careful {σ : Type} (r : Registry)
    (trees : String → Except Fault (Outline Element)) :
    (Surroundings.planting r trees : Surroundings σ).Careful where
  lookup := fun _ => Script.obeys_pure _
  parse := by
    intro text
    simp only [planting]
    split
    · exact Script.careful_plant _
    · exact Script.obeys_fail _
  handle := fun _ _ => Script.obeys_pure ()

/-- Two nodes share an attribute, one of them gets class names through an attribute, and the other is
merged into it and put below it, where it is replaced by its snippet. In another store, an attribute
was renamed so that it lists class names, and layering files it as such. -/
theorem tidy_of_mem_storesOfAll_shared :
    let r : Registry := ⟨Keyed.insert ∅ "q" { serial := 0, body := .template "u" }⟩
    let u : Outline Element := .node {} [.node
      { name := some "u", attributes := [{ name := "class", value := some "k k" }] } []]
    let os : List (Operation Unit) :=
      [.other (.perform (.addAttribute { name := "class", value := some "x y x" })),
        .other (.perform (.addAttribute { name := "id", value := some "1" })),
        .makeNode (some "p") none false none [⟨0⟩, ⟨1⟩] ["y", ""],
        .makeNode (some "q") none false none [⟨1⟩] ["z"],
        .merge ⟨1⟩ ⟨0⟩, .other (.perform (.append ⟨0⟩ ⟨1⟩)),
        .resolveTree (pure (.planting r fun _ => .ok u)) ⟨2, 3⟩ ⟨0⟩]
    let spoiling : Script Unit Empty Unit := do
      Script.perform (.addAttribute { name := "id", value := some "k" })
      let _ ← Script.newNode none none false none [⟨0⟩] []
      Script.perform (.writeAttribute ⟨0⟩ { name := "class", value := some "k" })
    let w : World Unit := (spoiling.run { store := {}, state := () }).2
    (∀ o ∈ os, o.Careful) ∧
    (∃ s ∈ (Script.storesOfAll (os.map Operation.script) { store := {}, state := () }).getLast?,
      (s.data ⟨0⟩).classes = ["x", "y", "z"] ∧
      (s.document ⟨0⟩).children.map (·.label.classes) = [["k", "z"]] ∧ ∀ n, s.Tidy n) ∧
    w.store.Sound ∧ ¬w.store.Filed ⟨0⟩ ∧
    ∃ s', (Script.layerAttributes ⟨0⟩ ⟨0⟩).run w = (.done (), { w with store := s' }) ∧
      (s'.data ⟨0⟩).classes = ["k"] ∧ s'.Filed ⟨0⟩ := by
  intro r u os spoiling w
  have careful : ∀ o ∈ os, o.Careful := by
    have step : ∀ e : Edit, (∀ s, ¬e.Overwrites s) →
        (.other (.perform e) : Operation Unit).Careful :=
      fun e h => Script.obeys_perform h
    have resolve : (Operation.resolveTree (pure (.planting r fun _ => .ok u)) ⟨2, 3⟩ ⟨0⟩ :
        Operation Unit).Careful := by
      refine ⟨Script.obeys_pure _, ?_⟩
      rintro w c w' ⟨⟩
      exact Surroundings.planting_careful r _
    simp only [os, List.forall_mem_cons]
    exact ⟨step _ fun _ => id, step _ fun _ => id, trivial, trivial, trivial, step _ fun _ => id,
      resolve, nofun⟩
  obtain ⟨tidy, layers⟩ := tidy_of_mem_storesOfAll os careful ()
  have sound : w.store.Sound := Script.run_sound Store.sound_empty
  obtain ⟨s', hrun, filed, _⟩ := layers w ⟨0⟩ ⟨0⟩ sound (by decide +kernel)
  refine ⟨careful, ?_, sound, fun h => ?_, s', hrun, ?_, filed⟩
  · let stores := Script.storesOfAll (os.map Operation.script) { store := {}, state := () }
    let last : Store := stores.getLast (by decide +kernel)
    exact ⟨last, List.getLast_mem_getLast? _, by decide +kernel, by decide +kernel, fun n =>
      (tidy last (List.getLast_mem _) n).1⟩
  · have own := h.own ("id", ⟨0⟩) (by decide +kernel)
    exact absurd own (by decide +kernel)
  · have he := congrArg (fun out => (out.2.store.data ⟨0⟩).classes) hrun
    rw [← he]
    decide +kernel

end SnippetTree
