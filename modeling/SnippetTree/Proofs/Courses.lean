import SnippetTree.Proofs.Endings
import SnippetTree.Proofs.Leading
import SnippetTree.Proofs.Recording

namespace SnippetTree

/-- The visit of a node, with the stores before it and after it. -/
structure Visit where
  node : NodeId
  before : Store
  after : Store

theorem Edit.held_apply {s : Store} {m : NodeId} (e : Edit) (hm : m ∈ s) : m ∈ e.apply s := by
  cases e with
  | append p c => exact (s.altersNodes_append p c).mem_iff.mpr hm
  | insertBefore p c reference =>
    cases reference with
    | none => exact (s.altersNodes_append p c).mem_iff.mpr hm
    | some r => exact (s.altersNodes_insertBefore p c r).mem_iff.mpr hm
  | detach c => exact (s.altersNodes_detach c).mem_iff.mpr hm
  | addNode =>
    rw [Store.mem_iff] at hm ⊢
    exact hm.trans_le (by simp [apply])
  | setName | setValue | setSelfClosing | setRepetition | setClasses | addClass | removeAttribute
  | clearAttributes => exact (s.altersNodes_modifyNode ..).mem_iff.mpr hm
  | setAttribute n a => exact (s.altersNodes_setAttribute n a).mem_iff.mpr hm
  | addAttribute | addRepetition | writeAttribute | writeRepetition | addGuard | enter | leave
  | report => exact hm

namespace Script

variable {σ : Type}

theorem run_eq_done {α : Type} {p : Script σ Empty α} {w : World σ} {a : α}
    (h : (p.run w).1 = .done a) : p.run w = (.done a, (p.run w).2) := Prod.ext h rfl

theorem held_run {α : Type} (p : Script σ Empty α) (w : World σ) :
    ∀ m ∈ w.store, m ∈ (p.run w).2.store :=
  run_invariant (P := fun s => ∀ m ∈ w.store, m ∈ s)
    (fun _ e kept _ m hm => e.held_apply (kept m hm)) fun _ hm => hm

theorem wellLinked_run {α : Type} {p : Script σ Empty α} {w : World σ} (h : w.store.WellLinked) :
    (p.run w).2.store.WellLinked :=
  run_invariant (fun _ _ h ok => Edit.wellLinked_apply h ok) h

/-- The course of a walk from `start` over its siblings and all that is below them. The sibling
after a node is the one that it had before its visit, and what is below it is walked as it is after
the visit. -/
inductive Course (visit : NodeId → Script σ Empty Unit) :
    World σ → Option NodeId → List (Outline Visit) → World σ → Prop
  | nil (w : World σ) : Course visit w none [] w
  | cons {c : NodeId} {w w₁ w₂ w' : World σ} {us ts : List (Outline Visit)}
      (visited : (visit c).run w = (.done (), w₁))
      (below : Course visit w₁ (w₁.store.links c).firstChild us w₂)
      (rest : Course visit w₂ (w.store.links c).nextSibling ts w') :
      Course visit w (some c) (.node ⟨c, w.store, w₁.store⟩ us :: ts) w'

variable {visit : NodeId → Script σ Empty Unit} {w w₁ w' : World σ} {start : Option NodeId}
  {n c : NodeId}
  {ts : List (Outline Visit)} {vs : List Visit}

/-- A walk along a course ends once its bound is large enough. -/
theorem Course.ends (h : Course visit w start ts w') :
    WalkEnds (fun _ => visit) start w (.done (), w') := by
  induction h with
  | nil w => exact .none w
  | cons visited _ _ below rest => exact .cons (.of_done (.of_run visited) below) rest

theorem Course.run_walk (h : Course visit w (w.store.links n).firstChild ts w') :
    ∃ enough, ∀ steps, enough ≤ steps → (walk steps n visit).run w = (.done (), w') := by
  obtain ⟨enough, ends⟩ := h.ends.walk
  exact ⟨enough, fun steps room => ends ⟨steps, steps⟩ room room⟩

theorem exists_course_of_visitFrom {body : NodeId → Script σ Empty Unit} {steps : Nat}
    (below : ∀ c w₁ w₂, (body c).run w₁ = (.done (), w₂) →
      ∃ us, Course visit w₁ (w₁.store.links c).firstChild us w₂)
    (h : (visitFrom (fun c => visit c >>= fun _ => body c) steps start).run w = (.done (), w')) :
    ∃ ts, Course visit w start ts w' := by
  induction steps generalizing start w with
  | zero =>
    cases start with
    | none => cases h; exact ⟨[], .nil _⟩
    | some c => cases h
  | succ steps ih =>
    cases start with
    | none => cases h; exact ⟨[], .nil _⟩
    | some c =>
      obtain ⟨following, _, hread, h⟩ := exists_run_of_bind h
      cases hread
      obtain ⟨_, w₂, hvisit, hrest⟩ := exists_run_of_bind h
      obtain ⟨_, w₁, visited, hbelow⟩ := exists_run_of_bind hvisit
      obtain ⟨us, hus⟩ := below c w₁ w₂ hbelow
      obtain ⟨ts, hts⟩ := ih hrest
      exact ⟨_, .cons visited hus hts⟩

/-- A walk that ends has a course. -/
theorem exists_course_of_walk {steps : Nat} (h : (walk steps n visit).run w = (.done (), w')) :
    ∃ ts, Course visit w (w.store.links n).firstChild ts w' := by
  induction steps generalizing n w w' with
  | zero => cases h
  | succ steps ih =>
    obtain ⟨start, _, hread, h⟩ := exists_run_of_bind h
    cases hread
    exact exists_course_of_visitFrom (fun c w₁ w₂ => ih) h

def noting (visit : NodeId → Script σ Empty Unit) (c : NodeId) :
    Script (σ × List Visit) Empty Unit := do
  let before ← read id
  onFirst (visit c)
  let after ← read id
  host (fun state => (state.1, state.2 ++ [⟨c, before, after⟩])) fun _ => done ()

theorem run_noting (visited : (visit c).run w = (.done (), w₁)) (vs : List Visit) :
    (noting visit c).run ⟨w.store, (w.state, vs)⟩ =
      (.done (), ⟨w₁.store, (w₁.state, vs ++ [⟨c, w.store, w₁.store⟩])⟩) := by
  have hfirst := run_onFirst (visit c) w vs
  rw [visited] at hfirst
  exact (run_bind_of_done (run_read ..)).trans (run_bind_of_done hfirst)

theorem exists_visit_of_noting {v v' : World (σ × List Visit)}
    (h : (noting visit c).run v = (.done (), v')) :
    ∃ w₁, (visit c).run ⟨v.store, v.state.1⟩ = (.done (), w₁) ∧
      v' = ⟨w₁.store, (w₁.state, v.state.2 ++ [⟨c, v.store, w₁.store⟩])⟩ := by
  have hfirst := run_onFirst (visit c) ⟨v.store, v.state.1⟩ v.state.2
  rcases hvisit : (visit c).run ⟨v.store, v.state.1⟩ with ⟨out, w₁⟩
  obtain ⟨_, _, hread, h⟩ := exists_run_of_bind h
  cases hread
  obtain ⟨_, _, hrun, h⟩ := exists_run_of_bind h
  rw [hvisit] at hfirst
  cases out with
  | done =>
    cases hfirst.symm.trans hrun
    cases h
    exact ⟨w₁, rfl, rfl⟩
  | failed | exhausted => cases hfirst.symm.trans hrun

theorem Course.noting (h : Course visit w start ts w') (vs : List Visit) :
    Course (noting visit) ⟨w.store, (w.state, vs)⟩ start ts
      ⟨w'.store, (w'.state, vs ++ Outline.labels ts)⟩ := by
  induction h generalizing vs with
  | nil w =>
    rw [Outline.labels_nil, List.append_nil]
    exact .nil _
  | @cons c w w₁ _ _ us ts visited _ _ below rest =>
    have order : vs ++ Outline.labels (.node ⟨c, w.store, w₁.store⟩ us :: ts) =
        (vs ++ [⟨c, w.store, w₁.store⟩]) ++ Outline.labels us ++ Outline.labels ts := by simp
    rw [order]
    exact .cons (run_noting visited vs) (below _) (rest _)

theorem Course.of_noting {v v' : World (σ × List Visit)}
    (h : Course (Script.noting visit) v start ts v') :
    Course visit ⟨v.store, v.state.1⟩ start ts ⟨v'.store, v'.state.1⟩ ∧
      v'.state.2 = v.state.2 ++ Outline.labels ts := by
  induction h with
  | nil v => exact ⟨.nil _, by simp⟩
  | cons visited _ _ below rest =>
    obtain ⟨w₁, hvisit, rfl⟩ := exists_visit_of_noting visited
    refine ⟨.cons hvisit below.1 rest.1, ?_⟩
    rw [rest.2, below.2]
    simp

theorem Course.run_walk_noting (h : Course visit w (w.store.links n).firstChild ts w') :
    ∃ enough, ∀ steps, enough ≤ steps → (walk steps n (Script.noting visit)).run
      ⟨w.store, (w.state, [])⟩ = (.done (), ⟨w'.store, (w'.state, Outline.labels ts)⟩) :=
  (h.noting []).run_walk

theorem exists_course_of_walk_noting {steps : Nat} {log : List Visit}
    (h : (walk steps n (noting visit)).run ⟨w.store, (w.state, [])⟩ =
      (.done (), ⟨w'.store, (w'.state, log)⟩)) :
    ∃ ts, Course visit w (w.store.links n).firstChild ts w' ∧ Outline.labels ts = log := by
  obtain ⟨ts, course⟩ := exists_course_of_walk h
  obtain ⟨course, order⟩ := course.of_noting
  exact ⟨ts, course, order.symm⟩

end Script

end SnippetTree
