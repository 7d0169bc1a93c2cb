import SnippetTree.Proofs.Failing
import SnippetTree.Proofs.Planting

namespace SnippetTree

open Script

/-- What a resolution may fail with, where handlers raise some faults of their own. -/
inductive Fault.Expected (raised : Fault → Prop) : Fault → Prop
  | unparsable (template reason : String) (node : Option String) (cause : Fault) :
      Expected raised (.because (.unparsable template reason node) cause)
  | tree (t : TreeFault) : Expected raised (.tree t)
  | raised {fault : Fault} (h : raised fault) : Expected raised fault
  | lostParent : Expected raised .lostParent

/-- While a node was replaced that had a parent, it came to have none: in the end it had neither a
parent nor any children. -/
def Store.LosesParent (s : Store) (es : List Edit) : Prop :=
  ∃ before during after name text n,
    es = before ++ .report (.expanding name text) :: (during ++ after) ∧
    ((s.after before).data n).name = some name ∧ ((s.after before).links n).parent ≠ none ∧
    ((s.after (before ++ .report (.expanding name text) :: during)).links n).parent = none ∧
    ((s.after (before ++ .report (.expanding name text) :: during)).links n).firstChild = none

/-- At some moment the node has neither a parent nor any children. -/
def Store.Orphans (s : Store) (n : NodeId) (es : List Edit) : Prop :=
  ∃ during after, es = during ++ after ∧ ((s.after during).links n).parent = none ∧
    ((s.after during).links n).firstChild = none

theorem Store.LosesParent.earlier {s : Store} {es es' : List Edit}
    (h : (s.after es).LosesParent es') : s.LosesParent (es ++ es') := by
  obtain ⟨before, during, after, name, text, n, rfl, hname, parent, lost⟩ := h
  refine ⟨es ++ before, during, after, name, text, n, by simp, ?_⟩
  rw [List.append_assoc, after_append, after_append]
  exact ⟨hname, parent, lost⟩

theorem Store.LosesParent.later {s : Store} {es : List Edit} (h : s.LosesParent es)
    (es' : List Edit) : s.LosesParent (es ++ es') := by
  obtain ⟨before, during, after, name, text, n, rfl, rest⟩ := h
  exact ⟨before, during, after ++ es', name, text, n, by simp, rest⟩

namespace Resolution

/-- What is said of failures holds of those that resolutions report, of a lost parent where a node
has lost it, and of those in `A`, which handlers may raise. What handlers are told of is in `A`, or
it already says what is to be said. -/
structure Covers (A : Fault → Prop) (B : Fault → Store → List Edit → Prop) : Prop
    extends Fault.Accounts B where
  unparsable : ∀ template reason node cause s,
    B (.because (.unparsable template reason node) cause) s []
  lostParent : ∀ s es, s.LosesParent es → B .lostParent s es
  own : ∀ fault s, A fault → B fault s []
  told : ∀ fault s es, B fault s es → A fault ∨ ∀ fault', B fault' s es

variable {σ : Type} {raised A : Fault → Prop} {B : Fault → Store → List Edit → Prop}
  {c : Surroundings σ} {g : GuardId} {n : NodeId} {name text : String} {s : Snippet} {steps : Nat}
  {resolve : NodeId → Script σ Empty Unit} {w w' : World σ}

/-- Failures for a lost parent come only where a node has lost its parent while it was replaced. -/
theorem covers_lostParent : Covers (· ≠ .lostParent) fun fault s es =>
    fault = .lostParent → s.LosesParent es where
  refusal := nofun
  earlier := fun _ _ _ _ h lost => (h lost).earlier
  later := fun _ _ _ es' h lost => (h lost).later es'
  unparsable := nofun
  lostParent := fun _ _ h _ => h
  own := fun _ _ h lost => absurd lost h
  told := by
    intro fault s es h
    by_cases lost : fault = .lostParent
    · exact Or.inr fun _ _ => h lost
    · exact Or.inl lost

theorem covers_expected : Covers (Fault.Expected raised) fun fault _ _ =>
    fault.Expected raised where
  refusal := fun t _ => .tree t
  earlier := fun _ _ _ _ h => h
  later := fun _ _ _ _ h => h
  unparsable := fun template reason node cause _ => .unparsable template reason node cause
  lostParent := fun _ _ _ => .lostParent
  own := fun _ _ h => h
  told := fun _ _ _ h => Or.inl h

theorem fails_within (accounts : Fault.Accounts B) {body : Script σ Empty Unit} (h : body.Fails B) :
    (within g s body).Fails B :=
  (fails_perform accounts _).bind accounts fun _ _ => h.ensuring accounts fun _ => rfl

theorem fails_parseFor (covers : Covers A B) : (parseFor c text name).Fails B := by
  refine fun w => FailsFrom.attempt_bind covers.toAccounts (fun _ _ _ => fails_pure _ _) ?_
  rintro e w' hrun _ _ ⟨⟩
  refine covers.earlier _ _ _ _ (covers.unparsable text e.message (some name) e _)

theorem orphans_accounts (accounts : Fault.Accounts B) (n : NodeId) : Fault.Accounts
    fun fault s es => B fault s es ∨ fault = .lostParent ∧ s.Orphans n es where
  refusal := fun t s => Or.inl (accounts.refusal t s)
  earlier := by
    rintro fault s es es' (h | ⟨lost, during, after, rfl, orphan⟩)
    · exact Or.inl (accounts.earlier _ _ _ _ h)
    · refine Or.inr ⟨lost, es ++ during, after, by simp, ?_⟩
      rw [Store.after_append]
      exact orphan
  later := by
    rintro fault s es es' (h | ⟨lost, during, after, rfl, orphan⟩)
    · exact Or.inl (accounts.later _ _ _ _ h)
    · exact Or.inr ⟨lost, during, after ++ es', by simp, orphan⟩

theorem firstChild_of_run_drain {move : NodeId → Script σ Empty Unit}
    (hrun : (drain n move).run w = (.done (), w')) : (w'.store.links n).firstChild = none := by
  have within : ∀ bound w, (drainWithin n move bound).run w = (.done (), w') →
      (w'.store.links n).firstChild = none := by
    intro bound
    induction bound with
    | zero => exact nofun
    | succ bound ih =>
      intro w hrun
      obtain ⟨first, _, hread, hrun⟩ := exists_run_of_bind hrun
      obtain ⟨hfirst, rfl⟩ := Prod.mk.inj hread
      cases first with
      | none =>
        cases hrun
        exact Outcome.done.inj hfirst
      | some c =>
        obtain ⟨_, w₁, _, hrest⟩ := exists_run_of_bind hrun
        exact ih w₁ hrest
  exact within _ w hrun

theorem failsFrom_splice (accounts : Fault.Accounts B) (tree : NodeId)
    (moved : (w.store.links n).firstChild = none) :
    (splice tree n : Script σ Empty Unit).FailsFrom
      (fun fault s es => B fault s es ∨ fault = .lostParent ∧ s.Orphans n es) w := by
  have here : Fault.Accounts fun fault s es => B fault s es ∨ fault = .lostParent :=
    { refusal := fun t s => Or.inl (accounts.refusal t s)
      earlier := fun _ _ _ _ h => h.imp_left (accounts.earlier _ _ _ _)
      later := fun _ _ _ _ h => h.imp_left (accounts.later _ _ _ _) }
  refine FailsFrom.bind (orphans_accounts accounts n) (fails_read _ w) fun parent w' hread => ?_
  obtain ⟨hparent, rfl⟩ := Prod.mk.inj hread
  cases parent with
  | none =>
    intro fault w' hrun
    have lost : B fault w.store _ ∨ fault = .lostParent :=
      Fails.bind here (fails_drain here fun top => fails_fail fun _ => Or.inr rfl)
        (fun _ _ => fails_perform here _) w fault w' hrun
    exact lost.imp_right fun h => ⟨h, [], _, rfl, Outcome.done.inj hparent, moved⟩
  | some p =>
    have step : ∀ top, (do
        merge n top
        perform (.insertBefore p top (some n)) : Script σ Empty Unit).Fails B := fun top =>
      (fails_merge accounts n top).bind accounts fun _ _ => fails_perform accounts _
    exact (Fails.bind accounts (fails_drain accounts step) fun _ _ =>
      fails_perform accounts _).mono (fun _ _ _ h => Or.inl h) w

theorem failsFrom_replaceBy (covers : Covers A B) (h : ∀ m, (resolve m).Fails B)
    (hname : (w.store.data n).name = some name) :
    (replaceBy c g steps resolve n name s text).FailsFrom B w := by
  have accounts := covers.toAccounts
  have orphans := orphans_accounts accounts n
  refine FailsFrom.bind accounts (fails_read _ w) fun parent w' hread => ?_
  obtain ⟨hparent, rfl⟩ := Prod.mk.inj hread
  have attached : (w.store.links n).parent = parent := Outcome.done.inj hparent
  cases parent with
  | none =>
    refine Fails.bind accounts (fails_read _) (fun name' _ => ?_) w
    rintro v _ _ ⟨⟩
    exact accounts.refusal _ _
  | some p =>
    -- what is asked for may lose the parent of another node, and then says so itself
    have keep : ∀ m, (resolve m).Fails fun fault s es =>
        B fault s es ∨ fault = .lostParent ∧ s.Orphans n es :=
      fun m => (h m).mono fun _ _ _ => Or.inl
    have rest : (do
        let tree ← parseFor c text name
        within g s (walk steps tree resolve)
        let last ← read (·.lastLeaf tree)
        walk steps n resolve
        drain n fun child => perform (.append last child)
        splice tree n : Script σ Empty Unit).Fails fun fault s es =>
          B fault s es ∨ fault = .lostParent ∧ s.Orphans n es :=
      ((fails_parseFor covers).mono fun _ _ _ => Or.inl).bind orphans fun tree _ =>
        (fails_within orphans (fails_walk orphans keep steps tree)).bind orphans fun _ _ =>
          (fails_read _).bind orphans fun last _ =>
            (fails_walk orphans keep steps n).bind orphans fun _ _ v =>
              FailsFrom.bind orphans (fails_drain orphans (fun _ => fails_perform orphans _) v)
                fun _ _ hdrain => failsFrom_splice accounts tree (firstChild_of_run_drain hdrain)
    intro fault w' hrun
    let begun : Edit := .report (.expanding name text)
    rcases rest { w with store := begun.apply w.store } fault w' hrun with
      told | ⟨rfl, during, after, cut, orphan⟩
    · exact accounts.earlier fault w.store [begun] _ told
    · refine covers.lostParent _ _ ⟨[], during, after, name, text, n, congrArg (begun :: ·) cut, hname,
        ?_, orphan⟩
      exact fun lost => Option.some_ne_none p (attached.symm.trans lost)

/-- Lookups answer from a registry, and handlers fail with what they raise, with the refusal of an edit
or with what they asked for. -/
structure Expects (r : Registry) (c : Surroundings σ) (raised : Fault → Prop) : Prop where
  answers : ∀ name (w : World σ), ∃ state,
    (c.lookup name).run w = (.done ((r.find? name).map .snippet), { w with state })
  raises : ∀ h n, (c.handle h n).Raises (Fault.Expected raised)

variable {r : Registry}

theorem failsFrom_follow (covers : Covers A B) (raises : ∀ h n, (c.handle h n).Raises A)
    (h : ∀ m, (resolve m).Fails B) (hname : (w.store.data n).name = some name) :
    (follow c g steps resolve n name (.snippet s)).FailsFrom B w := by
  have accounts := covers.toAccounts
  obtain ⟨serial, body, given⟩ := s
  refine FailsFrom.bind accounts (fails_read _ w) fun active w' hread => ?_
  obtain ⟨-, rfl⟩ := Prod.mk.inj hread
  cases active with
  | true => exact fails_perform accounts _ w
  | false =>
    cases body with
    | handler hid =>
      have served := (raises hid n).fails_serve accounts covers.own covers.told h
      exact Fails.bind accounts (fails_perform accounts _) (fun _ _ => served) w
    | template text => exact failsFrom_replaceBy covers h hname

/-- Under a guard, at whatever depth. By induction on the depth, which an expansion takes one of. -/
theorem Expects.fails_under (expects : Expects r c raised) (covers : Covers A B)
    (raises : ∀ h n, (c.handle h n).Raises A) (depth : Nat) (n : NodeId) :
    (under c g steps depth n).Fails B := by
  have accounts := covers.toAccounts
  induction depth generalizing n with
  | zero => exact fails_exhausted
  | succ depth ih =>
    refine fun w => FailsFrom.bind accounts (fails_read _ w) fun name w' hread => ?_
    obtain ⟨hname, rfl⟩ := Prod.mk.inj hread
    cases name with
    | none => exact fails_pure () w
    | some name =>
      obtain ⟨state, hanswer⟩ := expects.answers name w
      refine FailsFrom.bind accounts ?_ fun answer w' hlookup => ?_
      · intro fault w' hlookup
        cases hanswer.symm.trans hlookup
      · obtain ⟨found, rfl⟩ := Prod.mk.inj (hanswer.symm.trans hlookup)
        obtain rfl := Outcome.done.inj found
        cases r.find? name with
        | none => exact fails_pure () _
        | some s => exact failsFrom_follow covers raises ih (Outcome.done.inj hname)

theorem run_follow_of_template {w : World σ} (inactive : (w.store.guardAt g).contains s = false)
    (body : s.body = .template text) : (follow c g steps resolve n name (.snippet s)).run w =
      (replaceBy c g steps resolve n name s text).run w := by
  have hactive : (isActive g (.snippet s) : Script σ Empty _).run w = (.done false, w) := by
    rw [run_isActive, inactive]
  obtain ⟨serial, _, given⟩ := s
  cases body
  exact run_bind_of_done hactive

theorem Expects.run_under_of_parentless (expects : Expects r c raised) (steps depth : Nat)
    {w : World σ} (hn : (w.store.data n).name = some name) (hfind : r.find? name = some s)
    (body : s.body = .template text) (inactive : (w.store.guardAt g).contains s = false)
    (parentless : (w.store.links n).parent = none) :
    ∃ state, (under c g steps (depth + 1) n).run w =
      (.failed (.tree (.noParent (some name))), { w with state }) := by
  obtain ⟨state, hanswer⟩ := expects.answers name w
  rw [hfind] at hanswer
  let w₁ : World σ := { w with state }
  have hname : (Script.read fun s => (s.data n).name : Script σ Empty _).run w =
      (.done (some name), w) := by rw [run_read, hn]
  have hname₁ : (Script.read fun s => (s.data n).name : Script σ Empty _).run w₁ =
      (.done (some name), w₁) := by rw [run_read, hn]
  have hparent : (Script.read fun s => (s.links n).parent : Script σ Empty _).run w₁ =
      (.done none, w₁) := by rw [run_read, parentless]
  have hreplace : (replaceBy c g steps (under c g steps depth) n name s text).run w₁ =
      (.failed (.tree (.noParent (some name))), w₁) :=
    (run_bind_of_done hparent).trans (run_bind_of_done hname₁)
  exact ⟨state, (run_bind_of_done hname).trans ((run_bind_of_done hanswer).trans
    ((run_follow_of_template (w := w₁) inactive body).trans hreplace))⟩

theorem Expects.fails_resolveAt (expects : Expects r c raised) (covers : Covers A B)
    (raises : ∀ h n, (c.handle h n).Raises A) (limits : Limits) (n : NodeId) :
    (resolveAt c limits n).Fails B := by
  have guard : (newGuard : Script σ Empty GuardId).Fails B := by
    rintro w fault w' ⟨⟩
  exact guard.bind covers.toAccounts fun g _ => expects.fails_under covers raises limits.depth n

end Resolution

/-- A resolution fails with a template that cannot be read, with the refusal of an edit, with what a
handler raises, or because a node under replacement has lost its parent; with nothing else. Wherever it
comes to a node that has a template but no parent, it fails before the store is changed, and so it does
where it starts from such a node. The last kind of failure, where no handler makes it up, comes only of
a node that had a parent when its replacement began and none once its children were moved. -/
theorem resolveAt_fails {σ : Type} (r : Registry) (c : Surroundings σ) (raised : Fault → Prop)
    (expects : Resolution.Expects r c raised) (limits : Limits) (n : NodeId) (w : World σ) :
    (∀ fault w', (resolveAt c limits n).run w = (.failed fault, w') → fault.Expected raised) ∧
      (∀ g steps depth m (v : World σ) name s text, (v.store.data m).name = some name →
        r.find? name = some s → s.body = .template text →
        (v.store.guardAt g).contains s = false → (v.store.links m).parent = none →
        ∃ state, (Resolution.under c g steps (depth + 1) m).run v =
          (.failed (.tree (.noParent (some name))), { v with state })) ∧
      (∀ name s text, (w.store.data n).name = some name → r.find? name = some s →
        s.body = .template text → (w.store.links n).parent = none → limits.depth ≠ 0 →
        ∃ w', (resolveAt c limits n).run w = (.failed (.tree (.noParent (some name))), w') ∧
          w.store.Rests w'.store) ∧
      ((∀ h m, (c.handle h m).Raises (· ≠ .lostParent)) →
        ∀ w', (resolveAt c limits n).run w = (.failed .lostParent, w') →
          w.store.LosesParent ((resolveAt c limits n).edits w)) := by
  refine ⟨expects.fails_resolveAt Resolution.covers_expected expects.raises limits n w,
    fun g steps depth m v name s text hm hfind body inactive parent => ?_,
    fun name s text hn hfind body parentless room => ?_, fun raises w' hrun => ?_⟩
  · exact expects.run_under_of_parentless steps depth hm hfind body inactive parent
  · let w₁ : World σ := { w with store := Edit.addGuard.apply w.store }
    have guard : (newGuard : Script σ Empty GuardId).run w = (.done w.store.freshGuard, w₁) := rfl
    have empty : w₁.store.guardAt w.store.freshGuard = {} := by
      simp [w₁, Edit.apply, Store.freshGuard, Store.guardAt]
    obtain ⟨depth, hdepth⟩ := Nat.exists_eq_succ_of_ne_zero room
    have inactive : (w₁.store.guardAt w.store.freshGuard).contains s = false := by
      rw [empty]
      rfl
    obtain ⟨state, hrun⟩ := expects.run_under_of_parentless limits.steps depth (w := w₁) hn hfind body
      inactive parentless
    rw [← Nat.succ_eq_add_one, ← hdepth] at hrun
    exact ⟨_, (run_bind_of_done guard).trans hrun, rfl, rfl, rfl⟩
  · exact expects.fails_resolveAt Resolution.covers_lostParent raises limits n w _ w' hrun rfl

/-- A snippet `x` with a template, and a snippet `h` with a handler. -/
def Registry.mixed : Registry :=
  ⟨(Keyed.insert ∅ "x" { serial := 0, body := .template "a" }).insert "h"
    { serial := 1, body := .handler ⟨0⟩ }⟩

/-- The template of `x` is a node `a`, and the handler of `h` detaches the parent of its node. -/
def Surroundings.detaching : Surroundings Unit where
  __ : Surroundings Unit := planting .mixed fun text => .ok (.node {} [.node { name := some text } []])
  handle _ n := do
    if let some p ← read fun s => (s.links n).parent then
      perform (.detach p)

theorem detaching_expects : Resolution.Expects .mixed .detaching fun _ => False where
  answers := fun _ w => ⟨w.state, rfl⟩
  raises := by
    intro h n s
    cases hp : (s.links n).parent with
    | none => simp only [hp]; trivial
    | some p => simp only [hp]; exact ⟨trivial, nofun⟩

/-- A node `x` without a parent, and a node `h` below it. -/
def World.detachedNode : World Unit where
  store := {
    nodes := #[{ data := { name := some "x" },
                 links := { firstChild := some ⟨1⟩, lastChild := some ⟨1⟩ } },
      { data := { name := some "h" }, links := { parent := some ⟨0⟩ } }] }
  state := ()

/-- The detached `x` is reported, and no handler is reached. -/
theorem resolveAt_fails_detached :
    Resolution.Expects .mixed .detaching (fun _ => False) ∧
      (∀ fault w', (resolveAt .detaching ⟨9, 9⟩ ⟨0⟩).run .detachedNode = (.failed fault, w') →
        fault.Expected fun _ => False) ∧
      ∃ w', (resolveAt .detaching ⟨9, 9⟩ ⟨0⟩).run .detachedNode =
          (.failed (.tree (.noParent (some "x"))), w') ∧
        World.detachedNode.store.Rests w'.store := by
  obtain ⟨faults, _, parentless, _⟩ :=
    resolveAt_fails .mixed .detaching _ detaching_expects ⟨9, 9⟩ ⟨0⟩ .detachedNode
  exact ⟨detaching_expects, faults, parentless "x" _ "a" rfl rfl rfl rfl (by decide)⟩

/-- A node `x` with a parent, and a node `h` below it. -/
def World.nestedNode : World Unit where
  store := {
    nodes := #[{ links := { firstChild := some ⟨1⟩, lastChild := some ⟨1⟩ } },
      { data := { name := some "x" },
        links := { parent := some ⟨0⟩, firstChild := some ⟨2⟩, lastChild := some ⟨2⟩ } },
      { data := { name := some "h" }, links := { parent := some ⟨1⟩ } }] }
  state := ()

/-- The handler of `h` takes `x` out of its place while `x` is under replacement. The resolution fails
with something else than a refusal, and only once the child of `x` has been moved. -/
theorem resolveAt_loses_parent :
    Resolution.Expects .mixed .detaching (fun _ => False) ∧
      (World.nestedNode.store.links ⟨1⟩).parent = some ⟨0⟩ ∧
      World.nestedNode.store.children ⟨1⟩ = [⟨2⟩] ∧
      ∃ w', (resolveAt .detaching ⟨9, 9⟩ ⟨1⟩).run .nestedNode = (.failed .lostParent, w') ∧
        w'.store.children ⟨1⟩ = [] :=
  ⟨detaching_expects, rfl, rfl, _, rfl, rfl⟩

end SnippetTree
