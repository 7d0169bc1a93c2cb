import SnippetTree.Proofs.Merging
import SnippetTree.Resolution

namespace SnippetTree

open Script

variable {σ α β : Type} {w w' : World σ}

/-- From some bounds on, the script ends in this way. -/
def Ends (p : Limits → Script σ Empty α) (w : World σ) (r : Outcome α × World σ) : Prop :=
  ∃ k, ∀ limits : Limits, k ≤ limits.depth → k ≤ limits.steps → (p limits).run w = r

namespace Ends

theorem of_run {p : Script σ Empty α} {r : Outcome α × World σ} (h : p.run w = r) :
    Ends (fun _ => p) w r :=
  ⟨0, fun _ _ _ => h⟩

theorem bind {p : Limits → Script σ Empty α} {f : Limits → α → Script σ Empty β} {a : α}
    {r : Outcome β × World σ} (h : Ends p w (.done a, w')) (rest : Ends (fun l => f l a) w' r) :
    Ends (fun l => p l >>= f l) w r := by
  obtain ⟨k, hk⟩ := h
  obtain ⟨k', hk'⟩ := rest
  refine ⟨max k k', fun limits hd hs => ?_⟩
  have hd' := max_le_iff.mp hd
  have hs' := max_le_iff.mp hs
  rw [run_bind_of_done (hk limits hd'.1 hs'.1)]
  exact hk' limits hd'.2 hs'.2

theorem bind_failed {p : Limits → Script σ Empty α} {f : Limits → α → Script σ Empty β}
    {fault : Fault} (h : Ends p w (.failed fault, w')) :
    Ends (fun l => p l >>= f l) w (.failed fault, w') := by
  obtain ⟨k, hk⟩ := h
  exact ⟨k, fun limits hd hs => run_bind_of_failed (hk limits hd hs)⟩

theorem step {p : Script σ Empty α} {f : Limits → α → Script σ Empty β} {a : α}
    {r : Outcome β × World σ} (h : p.run w = (.done a, w')) (rest : Ends (fun l => f l a) w' r) :
    Ends (fun l => p >>= f l) w r :=
  (of_run h).bind rest

theorem sound {p : Limits → Script σ Empty α} {out : Outcome α} (h : Ends p w (out, w'))
    (start : w.store.Sound) : w'.store.Sound := by
  obtain ⟨k, hk⟩ := h
  exact sound_of_run start (hk ⟨k, k⟩ le_rfl le_rfl)

theorem within {body : Limits → Script σ Empty Unit} {g : GuardId} {s : Snippet}
    {out : Outcome Unit}
    (h : Ends body { w with store := (Edit.enter g s).apply w.store } (out, w')) :
    Ends (fun l => Resolution.within g s (body l)) w
      (out, { w' with store := (Edit.leave g s).apply w'.store }) := by
  obtain ⟨k, hk⟩ := h
  refine ⟨k, fun limits hd hs => ?_⟩
  refine (run_bind_of_done (run_perform_of_none rfl)).trans ?_
  rw [run_ensuring, hk limits hd hs, run_perform_of_none rfl]

theorem level {p : Limits → Script σ Empty α} {r : Outcome α × World σ} (h : Ends p w r) :
    Ends (fun l => p ⟨l.steps, l.steps⟩) w r := by
  obtain ⟨k, hk⟩ := h
  exact ⟨k, fun limits _ hs => hk ⟨limits.steps, limits.steps⟩ hs hs⟩

theorem both {τ : Type} {p : Limits → Script σ Empty α} {q : Limits → Script τ Empty β} {v : World τ}
    {r : Outcome α × World σ} {r' : Outcome β × World τ} (h : Ends p w r) (h' : Ends q v r') :
    ∃ k, ∀ limits : Limits, k ≤ limits.depth → k ≤ limits.steps →
      (p limits).run w = r ∧ (q limits).run v = r' := by
  obtain ⟨k, hk⟩ := h
  obtain ⟨k', hk'⟩ := h'
  refine ⟨max k k', fun limits hd hs => ⟨hk limits ?_ ?_, hk' limits ?_ ?_⟩⟩ <;> omega

end Ends

/-- How a visit of a node with the walk below it ends. -/
def VisitEnds (visit : Limits → NodeId → Script σ Empty Unit) (n : NodeId) (w : World σ)
    (r : Outcome Unit × World σ) : Prop :=
  ∃ k, ∀ limits : Limits, k ≤ limits.depth → k ≤ limits.steps → ∀ b, k ≤ b →
    (visit limits n >>= fun _ => walk b n (visit limits)).run w = r

/-- How a walk from `start` over its siblings and all below them ends. -/
def WalkEnds (visit : Limits → NodeId → Script σ Empty Unit) (start : Option NodeId) (w : World σ)
    (r : Outcome Unit × World σ) : Prop :=
  ∃ k, ∀ limits : Limits, k ≤ limits.depth → k ≤ limits.steps → ∀ b, k ≤ b → ∀ j, k ≤ j →
    (visitFrom (fun c => visit limits c >>= fun _ => walk b c (visit limits)) j start).run w = r

variable {visit : Limits → NodeId → Script σ Empty Unit} {n : NodeId} {r : Outcome Unit × World σ}
  {fault : Fault}

theorem WalkEnds.none (w : World σ) : WalkEnds visit Option.none w (.done (), w) :=
  ⟨0, fun _ _ _ _ _ _ _ => by rw [visitFrom]; rfl⟩

theorem WalkEnds.cons (h : VisitEnds visit n w (.done (), w'))
    (rest : WalkEnds visit (w.store.links n).nextSibling w' r) : WalkEnds visit (some n) w r := by
  obtain ⟨k, hk⟩ := h
  obtain ⟨k', hk'⟩ := rest
  refine ⟨max k k' + 1, fun limits hd hs b hb j hj => ?_⟩
  obtain ⟨j, rfl⟩ := Nat.exists_eq_succ_of_ne_zero (by omega : j ≠ 0)
  have hvisit := hk limits (by omega) (by omega) b (by omega)
  exact (run_bind_of_done (run_read ..)).trans ((run_bind_of_done hvisit).trans
    (hk' limits (by omega) (by omega) b (by omega) j (by omega)))

theorem WalkEnds.cons_failed (h : VisitEnds visit n w (.failed fault, w')) :
    WalkEnds visit (some n) w (.failed fault, w') := by
  obtain ⟨k, hk⟩ := h
  refine ⟨k + 1, fun limits hd hs b hb j hj => ?_⟩
  obtain ⟨j, rfl⟩ := Nat.exists_eq_succ_of_ne_zero (by omega : j ≠ 0)
  have hvisit := hk limits (by omega) (by omega) b (by omega)
  exact (run_bind_of_done (run_read ..)).trans (run_bind_of_failed hvisit)

theorem WalkEnds.walk (h : WalkEnds visit (w.store.links n).firstChild w r) :
    Ends (fun l => walk l.steps n (visit l)) w r := by
  obtain ⟨k, hk⟩ := h
  refine ⟨k + 1, fun limits hd hs => ?_⟩
  obtain ⟨b, hb⟩ := Nat.exists_eq_succ_of_ne_zero (by omega : limits.steps ≠ 0)
  have hchildren := hk limits (by omega) (by omega) b (by omega) b (by omega)
  change (Script.walk limits.steps n (visit limits)).run w = r
  rw [hb]
  exact (run_bind_of_done (run_read ..)).trans hchildren

theorem VisitEnds.of_done (h : Ends (visit · n) w (.done (), w'))
    (below : WalkEnds visit (w'.store.links n).firstChild w' r) : VisitEnds visit n w r := by
  obtain ⟨k, hk⟩ := h
  obtain ⟨k', hk'⟩ := below
  refine ⟨max k k' + 1, fun limits hd hs b hb => ?_⟩
  obtain ⟨b, rfl⟩ := Nat.exists_eq_succ_of_ne_zero (by omega : b ≠ 0)
  exact (run_bind_of_done (hk limits (by omega) (by omega))).trans
    ((run_bind_of_done (run_read ..)).trans
      (hk' limits (by omega) (by omega) b (by omega) b (by omega)))

theorem VisitEnds.of_failed (h : Ends (visit · n) w (.failed fault, w')) :
    VisitEnds visit n w (.failed fault, w') := by
  obtain ⟨k, hk⟩ := h
  exact ⟨k, fun limits hd hs _ _ => run_bind_of_failed (hk limits hd hs)⟩

namespace Resolution

variable {c : Nat → Surroundings σ} {g : GuardId} {name text : String} {answer : Answer} {s : Snippet}

/-- A resolution under a guard, as a script with bounds. Its surroundings may have as many steps for
themselves as a walk has. -/
def visitUnder (c : Nat → Surroundings σ) (g : GuardId) (limits : Limits) (n : NodeId) :
    Script σ Empty Unit :=
  under (c limits.steps) g limits.steps limits.depth n

theorem ends_under_of_nameless (hn : (w.store.data n).name = none) :
    Ends (visitUnder c g · n) w (.done (), w) := by
  refine ⟨1, fun limits hd hs => ?_⟩
  obtain ⟨depth, hdepth⟩ := Nat.exists_eq_succ_of_ne_zero (by omega : limits.depth ≠ 0)
  have hread : (read fun s => (s.data n).name : Script σ Empty _).run w = (.done none, w) := by
    rw [run_read, hn]
  simp only [visitUnder, hdepth]
  exact run_bind_of_done hread

theorem ends_under_of_unknown (hn : (w.store.data n).name = some name)
    (hl : Ends (fun l => (c l.steps).lookup name) w (.done none, w')) :
    Ends (visitUnder c g · n) w (.done (), w') := by
  obtain ⟨k, hk⟩ := hl
  refine ⟨k + 1, fun limits hd hs => ?_⟩
  obtain ⟨depth, hdepth⟩ := Nat.exists_eq_succ_of_ne_zero (by omega : limits.depth ≠ 0)
  have hread : (read fun s => (s.data n).name : Script σ Empty _).run w = (.done (some name), w) := by
    rw [run_read, hn]
  have hlookup := hk limits (by omega) (by omega)
  simp only [visitUnder, hdepth]
  exact (run_bind_of_done hread).trans (run_bind_of_done hlookup)

theorem ends_under_of_answer (hn : (w.store.data n).name = some name)
    (hl : Ends (fun l => (c l.steps).lookup name) w (.done (some answer), w'))
    (h : Ends (fun l => follow (c l.steps) g l.steps (visitUnder c g l) n name answer) w' r) :
    Ends (visitUnder c g · n) w r := by
  obtain ⟨k, hk⟩ := h
  obtain ⟨k', hk'⟩ := hl
  refine ⟨max k k' + 1, fun limits hd hs => ?_⟩
  obtain ⟨depth, hdepth⟩ := Nat.exists_eq_succ_of_ne_zero (by omega : limits.depth ≠ 0)
  have hread : (read fun s => (s.data n).name : Script σ Empty _).run w = (.done (some name), w) := by
    rw [run_read, hn]
  have hlookup := hk' limits (by omega) (by omega)
  have hfollow := hk ⟨depth, limits.steps⟩ (show k ≤ depth by omega) (show k ≤ limits.steps by omega)
  simp only [visitUnder, hdepth]
  exact (run_bind_of_done hread).trans ((run_bind_of_done hlookup).trans hfollow)

theorem run_isActive (g : GuardId) (s : Snippet) (w : World σ) :
    (isActive g (.snippet s) : Script σ Empty Bool).run w =
      (.done ((w.store.guardAt g).contains s), w) := by
  rw [isActive, run_read]

theorem ends_follow_of_active (active : (w.store.guardAt g).contains s = true) :
    Ends (fun l => follow (c l.steps) g l.steps (visit l) n name (.snippet s)) w
      (.done (), { w with store := (Edit.report (.keeping name)).apply w.store }) := by
  have hread : (isActive g (.snippet s) : Script σ Empty _).run w = (.done true, w) := by
    rw [run_isActive, active]
  refine ⟨0, fun limits _ _ => ?_⟩
  exact (run_bind_of_done hread).trans (run_perform_of_none rfl)

theorem ends_follow_of_inactive {r : Outcome Unit × World σ}
    {p : Limits → Script σ Empty Unit} (inactive : (w.store.guardAt g).contains s = false)
    (body : ∀ l, p l = match s.body with
      | .handler h => do
        perform (.report (.passing name))
        ((c l.steps).handle h n).serve (visit l)
      | .template text => replaceBy (c l.steps) g l.steps (visit l) n name s text)
    (h : Ends p w r) :
    Ends (fun l => follow (c l.steps) g l.steps (visit l) n name (.snippet s)) w r := by
  have hread : (isActive g (.snippet s) : Script σ Empty _).run w = (.done false, w) := by
    rw [run_isActive, inactive]
  obtain ⟨k, hk⟩ := h
  refine ⟨k, fun limits hd hs => (run_bind_of_done hread).trans ?_⟩
  rw [← hk limits hd hs, body]
  rfl

theorem ends_follow_of_handler {h : HandlerId} (inactive : (w.store.guardAt g).contains s = false)
    (body : s.body = .handler h)
    (handled : Ends (fun l => ((c l.steps).handle h n).serve (visit l))
      { w with store := (Edit.report (.passing name)).apply w.store } r) :
    Ends (fun l => follow (c l.steps) g l.steps (visit l) n name (.snippet s)) w r :=
  ends_follow_of_inactive inactive (fun l => by rw [body])
    (.step (run_perform_of_none rfl) handled)

theorem ends_follow_of_template (inactive : (w.store.guardAt g).contains s = false)
    (body : s.body = .template text)
    (h : Ends (fun l => replaceBy (c l.steps) g l.steps (visit l) n name s text) w r) :
    Ends (fun l => follow (c l.steps) g l.steps (visit l) n name (.snippet s)) w r :=
  ends_follow_of_inactive inactive (fun l => by rw [body]) h

section Parse

variable {c : Surroundings σ}

theorem run_parseFor_of_done {tree : NodeId} (h : (c.parse text).run w = (.done tree, w')) :
    (parseFor c text name).run w = (.done tree, w') := by
  have hattempt : (c.parse text).attempt.run w = (.done (.ok tree), w') := by rw [run_attempt, h]
  exact run_bind_of_done hattempt

theorem run_parseFor_of_failed {e : Fault} (h : (c.parse text).run w = (.failed e, w')) :
    (parseFor c text name).run w =
      (.failed (.because (.unparsable text e.message (some name)) e), w') := by
  have hattempt : (c.parse text).attempt.run w = (.done (.error e), w') := by rw [run_attempt, h]
  exact run_bind_of_done hattempt

end Parse

/-- What is left of a replacement once the template is parsed. -/
def settle (g : GuardId) (s : Snippet) (steps : Nat) (resolve : NodeId → Script σ Empty Unit)
    (tree n : NodeId) : Script σ Empty Unit := do
  within g s (walk steps tree resolve)
  let last ← .read (·.lastLeaf tree)
  walk steps n resolve
  drain n fun child => perform (.append last child)
  splice tree n

theorem ends_replaceBy_of_done {p tree : NodeId} (hp : (w.store.links n).parent = some p)
    (hparse : Ends (fun l => (c l.steps).parse text)
      { w with store := (Edit.report (.expanding name text)).apply w.store } (.done tree, w'))
    (h : Ends (fun l => settle g s l.steps (visit l) tree n) w' r) :
    Ends (fun l => replaceBy (c l.steps) g l.steps (visit l) n name s text) w r := by
  have hread : (read fun s => (s.links n).parent : Script σ Empty _).run w =
      (.done (some p), w) := by rw [run_read, hp]
  obtain ⟨k, hk⟩ := h
  obtain ⟨k', hk'⟩ := hparse
  refine ⟨max k k', fun limits hd hs => (run_bind_of_done hread).trans ?_⟩
  have hparse := hk' limits (by omega) (by omega)
  exact (run_bind_of_done (run_perform_of_none rfl)).trans
    ((run_bind_of_done (run_parseFor_of_done hparse)).trans (hk limits (by omega) (by omega)))

theorem ends_replaceBy_of_failed {p : NodeId} {e : Fault}
    (hp : (w.store.links n).parent = some p)
    (hparse : Ends (fun l => (c l.steps).parse text)
      { w with store := (Edit.report (.expanding name text)).apply w.store } (.failed e, w')) :
    Ends (fun l => replaceBy (c l.steps) g l.steps (visit l) n name s text) w
      (.failed (.because (.unparsable text e.message (some name)) e), w') := by
  have hread : (read fun s => (s.links n).parent : Script σ Empty _).run w =
      (.done (some p), w) := by rw [run_read, hp]
  obtain ⟨k, hk⟩ := hparse
  refine ⟨k, fun limits hd hs => (run_bind_of_done hread).trans ?_⟩
  exact (run_bind_of_done (run_perform_of_none rfl)).trans
    (run_bind_of_failed (run_parseFor_of_failed (hk limits hd hs)))

end Resolution

end SnippetTree
