import SnippetTree.Proofs.Toured

namespace SnippetTree

namespace Visit

/-- Visits that begin a tour of some nodes and break off somewhere. -/
inductive Begins : List NodeId → List (Outline Visit) → Prop
  | stop (cs : List NodeId) : Begins cs []
  | inside {v : Visit} {us : List (Outline Visit)} (cs : List NodeId)
      (below : Begins (v.after.children v.node) us) : Begins (v.node :: cs) [.node v us]
  | cons {v : Visit} {cs : List NodeId} {us ts : List (Outline Visit)}
      (below : Tours (v.after.children v.node) us) (rest : Begins cs ts) :
      Begins (v.node :: cs) (.node v us :: ts)

end Visit

namespace Store

variable {s s₁ s₂ s' : Store} {walked cs bs : List NodeId} {c p : NodeId}
  {us ts : List (Outline Visit)}

theorem Visits.not_mem (h : s.Visits s₁ walked p bs c cs)
    (below : s₁.Passed s₂ (c :: walked) (s₁.children c) us) {v : Visit}
    (hv : v ∈ Outline.labels us) : v.node ∉ c :: cs := by
  rw [List.mem_cons, not_or]
  refine ⟨(h.apart_below below hv).1, fun hc => ?_⟩
  have under : s.Under cs v.node := under_of_mem hc
  have held := h.awaits.mem (under.mono (List.subset_cons_self c cs))
  exact h.awaits.apart under (h.under_of_visited_below below hv held)

theorem Visits.prefix_visited (h : s.Visits s₁ walked p bs c cs)
    (below : s₁.Passed s₂ (c :: walked) (s₁.children c) us) (rest : s₂.Passed s' walked cs ts)
    (order : ((Outline.labels ts).map Visit.node).filter (· ∈ cs) <+: cs) :
    ((Outline.labels (.node ⟨c, s, s₁⟩ us :: ts)).map Visit.node).filter (· ∈ c :: cs) <+:
      c :: cs := by
  have inner : ((Outline.labels us).map Visit.node).filter (· ∈ c :: cs) = [] := by
    rw [List.filter_eq_nil_iff]
    intro m hm hc
    obtain ⟨v, hv, rfl⟩ := List.mem_map.mp hm
    exact h.not_mem below hv (of_decide_eq_true hc)
  have after : ((Outline.labels ts).map Visit.node).filter (· ∈ c :: cs) =
      ((Outline.labels ts).map Visit.node).filter (· ∈ cs) := by
    refine List.filter_congr fun m hm => ?_
    obtain ⟨v, hv, rfl⟩ := List.mem_map.mp hm
    simp [(h.apart_after below rest hv).1]
  rw [Outline.labels_cons, List.map_cons, List.map_append, List.filter_cons_of_pos (by simp),
    List.filter_append, inner, after, List.nil_append]
  exact (List.prefix_cons_inj c).mpr order

theorem Passed.length_le (h : s.Passed s' walked cs ts) :
    (Outline.labels ts).length ≤ s'.nodes.size := by
  have nodup : ((Outline.labels ts).map fun v => v.node.index).Nodup := by
    refine List.pairwise_map.mpr (h.apart.imp fun apart he => apart.1 ?_)
    exact (congrArg NodeId.mk he).symm
  have held : ((Outline.labels ts).map fun v => v.node.index) ⊆ List.range s'.nodes.size := by
    intro i hi
    obtain ⟨v, hv, rfl⟩ := List.mem_map.mp hi
    exact List.mem_range.mpr (h.visited v hv).1
  simpa using (nodup.subperm held).length_le

end Store

namespace Script

variable {σ : Type} {visit : NodeId → Script σ Empty Unit} {w w' w₁ : World σ}
  {start next : Option NodeId} {ts : List (Outline Visit)} {walked bs cs : List NodeId}
  {c n p r : NodeId} {out : Outcome Unit}

/-- The visits that a walk from `start` has made to their end by the time that it comes to the last
world, where `next` would be visited. -/
inductive Partway (visit : NodeId → Script σ Empty Unit) : World σ → Option NodeId →
    List (Outline Visit) → World σ → Option NodeId → Prop
  | stop (w : World σ) (start : Option NodeId) : Partway visit w start [] w start
  | inside {c : NodeId} {w w₁ w' : World σ} {us : List (Outline Visit)} {next : Option NodeId}
      (visited : (visit c).run w = (.done (), w₁))
      (below : Partway visit w₁ (w₁.store.links c).firstChild us w' next) :
      Partway visit w (some c) [.node ⟨c, w.store, w₁.store⟩ us] w' next
  | cons {c : NodeId} {w w₁ w₂ w' : World σ} {us ts : List (Outline Visit)}
      {next : Option NodeId} (visited : (visit c).run w = (.done (), w₁))
      (below : Course visit w₁ (w₁.store.links c).firstChild us w₂)
      (rest : Partway visit w₂ (w.store.links c).nextSibling ts w' next) :
      Partway visit w (some c) (.node ⟨c, w.store, w₁.store⟩ us :: ts) w' next

theorem Course.partway (h : Course visit w start ts w') : Partway visit w start ts w' none := by
  induction h with
  | nil w => exact .stop w none
  | cons visited below _ _ rest => exact .cons visited below rest

theorem Partway.passed (h : Partway visit w start ts w' next)
    (confined : Visit.AllConfined walked ts) (awaits : w.store.Awaits walked p bs cs)
    (hstart : start = cs.head?) : w.store.Passed w'.store walked cs ts ∧ Visit.Begins cs ts ∧
      ((Outline.labels ts).map Visit.node).filter (· ∈ cs) <+: cs := by
  induction h generalizing walked bs cs p with
  | stop w start => exact ⟨.nil awaits.linked walked cs, .stop cs, List.nil_prefix⟩
  | @inside c w w₁ w' us next visited _ below =>
    obtain ⟨cs, rfl⟩ := List.head?_eq_some_iff.mp hstart.symm
    cases confined with
    | cons confined hbelow _ =>
      have h := awaits.visits visited confined
      obtain ⟨passed, begins, -⟩ := below hbelow h.descend h.linked.firstChild
      have rest : w'.store.Passed w'.store walked cs [] := .nil passed.linked walked cs
      exact ⟨h.passed passed rest, .inside (v := ⟨c, w.store, w₁.store⟩) cs begins,
        h.prefix_visited passed rest List.nil_prefix⟩
  | @cons c w w₁ w₂ w' us ts next visited below _ rest =>
    obtain ⟨cs, rfl⟩ := List.head?_eq_some_iff.mp hstart.symm
    cases confined with
    | cons confined hbelow hrest =>
      have h := awaits.visits visited confined
      obtain ⟨passed, tours⟩ := below.toured hbelow h.descend h.linked.firstChild
      obtain ⟨bs', ascends⟩ := h.ascend passed
      obtain ⟨passed', begins, order⟩ :=
        rest hrest ascends (awaits.linked.nextSibling_eq awaits.pending)
      exact ⟨h.passed passed passed', .cons (v := ⟨c, w.store, w₁.store⟩) tours begins,
        h.prefix_visited passed passed' order⟩

theorem run_bind_cases {α β : Type} {p : Script σ Empty α} {f : α → Script σ Empty β}
    {out : Outcome β} (h : (p >>= f).run w = (out, w')) :
    (∃ a w₁, p.run w = (.done a, w₁) ∧ (f a).run w₁ = (out, w')) ∨
      (∀ a, (p.run w).1 ≠ .done a) ∧ (p.run w).2 = w' ∧ ∀ b, out ≠ .done b := by
  rw [bind_eq, run_bind] at h
  rcases hp : p.run w with ⟨out', w₁⟩
  rw [hp] at h
  cases out' with
  | done a => exact Or.inl ⟨a, w₁, rfl, h⟩
  | failed | exhausted =>
    cases h
    exact Or.inr ⟨nofun, rfl, nofun⟩

theorem visit_of_noting {v : World (σ × List Visit)}
    (h : ∀ a, ((noting visit c).run v).1 ≠ .done a) :
    ((visit c).run ⟨v.store, v.state.1⟩).1 ≠ .done () ∧
      ((noting visit c).run v).2.state.2 = v.state.2 := by
  have hfirst := run_onFirst (visit c) ⟨v.store, v.state.1⟩ v.state.2
  have hrun : (noting visit c).run v = _ := (run_bind_of_done (run_read ..)).trans (run_bind ..)
  rw [hfirst] at hrun
  rcases hvisit : (visit c).run ⟨v.store, v.state.1⟩ with ⟨out, w₁⟩
  rw [hvisit] at hrun
  cases out with
  | done => exact absurd (congrArg Prod.fst hrun) (h ())
  | failed | exhausted => exact ⟨nofun, by rw [hrun]⟩

/-- How far a walk came: it has ended, or the next visit does not succeed, or it has made as many
visits as it may at the least. -/
def CameTo (visit : NodeId → Script σ Empty Unit) (v : World (σ × List Visit))
    (start : Option NodeId) (enough : Nat) (out : Outcome Unit) (v' : World (σ × List Visit)) :
    Prop :=
  ∃ ts w' next, Partway visit ⟨v.store, v.state.1⟩ start ts w' next ∧
    v'.state.2 = v.state.2 ++ Outline.labels ts ∧
    (out = .done () ∨ (∃ c, next = some c ∧ ((visit c).run w').1 ≠ .done ()) ∨
      enough ≤ (Outline.labels ts).length)

theorem cameTo_of_visitFrom {bound steps : Nat} {v v' : World (σ × List Visit)}
    (walks : ∀ c v out v', (walk steps c (noting visit)).run v = (out, v') →
      CameTo visit v (v.store.links c).firstChild (steps - 1) out v')
    (h : (visitFrom (fun c => noting visit c >>= fun _ => walk steps c (noting visit)) bound
      start).run v = (out, v')) : CameTo visit v start (min bound steps) out v' := by
  induction bound generalizing start v with
  | zero =>
    refine ⟨[], _, start, .stop _ start, ?_, Or.inr (Or.inr (by simp))⟩
    cases start <;> cases h <;> simp
  | succ bound ih =>
    cases start with
    | none =>
      cases h
      exact ⟨[], _, none, .stop _ none, by simp, Or.inl rfl⟩
    | some c =>
      have h : ((noting visit c >>= fun _ => walk steps c (noting visit)) >>= fun _ =>
          visitFrom (fun c => noting visit c >>= fun _ => walk steps c (noting visit)) bound
            (v.store.links c).nextSibling).run v = (out, v') := h
      -- the visit of `c` and the walk below it end, or the walk stops within them
      rcases run_bind_cases h with ⟨_, v₂, hfirst, hrest⟩ | ⟨stuck, hv', -⟩
      · obtain ⟨_, v₁, hvisit, hwalk⟩ := exists_run_of_bind hfirst
        obtain ⟨w₁, visited, rfl⟩ := exists_visit_of_noting hvisit
        obtain ⟨us, course⟩ := exists_course_of_walk hwalk
        obtain ⟨course, log⟩ := course.of_noting
        obtain ⟨ts, w', next, partway, log', came⟩ := ih hrest
        refine ⟨_, w', next, .cons visited course partway, by simp [log', log], ?_⟩
        refine came.imp_right (Or.imp_right fun enough => ?_)
        rw [Outline.labels_cons, List.length_cons, List.length_append]
        omega
      · rcases hfirst : (noting visit c >>= fun _ => walk steps c (noting visit)).run v with ⟨out₁, v₂⟩
        rw [hfirst] at stuck hv'
        obtain rfl : v₂ = v' := hv'
        rcases run_bind_cases hfirst with ⟨_, v₁, hvisit, hwalk⟩ | ⟨stuck', hv', -⟩
        · obtain ⟨w₁, visited, rfl⟩ := exists_visit_of_noting hvisit
          obtain ⟨us, w', next, partway, log, came⟩ := walks c _ out₁ v₂ hwalk
          refine ⟨_, w', next, .inside visited partway, by simp [log], ?_⟩
          refine Or.inr ((came.resolve_left (stuck ())).imp_right fun enough => ?_)
          rw [Outline.labels_cons, List.length_cons, List.length_append]
          omega
        · obtain ⟨fails, log⟩ := visit_of_noting stuck'
          refine ⟨[], _, some c, .stop _ _, ?_, Or.inr (Or.inl ⟨c, rfl, fails⟩)⟩
          rw [← hv', log, Outline.labels_nil, List.append_nil]

theorem cameTo_of_walk {steps : Nat} {v v' : World (σ × List Visit)}
    (h : (walk steps n (noting visit)).run v = (out, v')) :
    CameTo visit v (v.store.links n).firstChild (steps - 1) out v' := by
  induction steps generalizing n v out v' with
  | zero =>
    cases h
    exact ⟨[], _, _, .stop _ _, by simp, Or.inr (Or.inr (Nat.zero_le _))⟩
  | succ steps ih =>
    have came : CameTo visit v _ (min steps steps) out v' :=
      cameTo_of_visitFrom (fun c v out v' => ih) h
    rwa [Nat.min_self] at came

/-- A walk ends whose visitor does not fail, keeps to the visited nodes, and lets the store grow to
some size at most: no node is visited twice, so there are no more visits than nodes. -/
theorem exists_course_of_bounded (linked : w.store.WellLinked) (held : r ∈ w.store) (size : Nat)
    (succeeds : ∀ ts w' c, Partway visit w (w.store.links r).firstChild ts w' (some c) →
      ((visit c).run w').1 = .done ())
    (confined : ∀ ts w' next, Partway visit w (w.store.links r).firstChild ts w' next →
      Visit.AllConfined [r] ts)
    (bounded : ∀ ts w' next, Partway visit w (w.store.links r).firstChild ts w' next →
      w'.store.nodes.size ≤ size) :
    ∃ ts w', Course visit w (w.store.links r).firstChild ts w' := by
  rcases hrun : (walk (size + 2) r (noting visit)).run ⟨w.store, (w.state, [])⟩ with ⟨out, v'⟩
  obtain ⟨ts, w', next, partway, log, ended | ⟨c, rfl, fails⟩ | enough⟩ := cameTo_of_walk hrun
  · obtain ⟨us, course⟩ := exists_course_of_walk (ended ▸ hrun)
    exact ⟨us, _, course.of_noting.1⟩
  · exact absurd (succeeds ts w' c partway) fails
  · have passed := (partway.passed (confined ts w' next partway) (linked.awaits held)
      linked.firstChild).1
    have few := passed.length_le.trans (bounded ts w' next partway)
    omega

end Script

open Script

/-- However a walk ends, the visits that it has made are those of a course which breaks off where it
has come to. Where they are confined, they begin a tour of the children that the top node had at
first: these are visited in their order, as far as they are, no node is visited twice, and none after
it was put before a visited one. -/
theorem walk_begins {σ : Type} (visit : NodeId → Script σ Empty Unit) (w : World σ)
    (linked : w.store.WellLinked) (r : NodeId) (held : r ∈ w.store) (steps : Nat)
    (out : Outcome Unit) (v' : World (σ × List Visit))
    (hrun : (walk steps r (noting visit)).run ⟨w.store, (w.state, [])⟩ = (out, v')) :
    ∃ ts w' next, Partway visit w (w.store.links r).firstChild ts w' next ∧
      Outline.labels ts = v'.state.2 ∧ (Visit.AllConfined [r] ts →
        let visited := v'.state.2.map Visit.node
        visited.filter (· ∈ w.store.children r) <+: w.store.children r ∧
        Visit.Begins (w.store.children r) ts ∧
        visited.Nodup ∧
        ∀ before v after, v'.state.2 = before ++ v :: after →
          ∀ n ∈ v.inserted, n ∉ after.map Visit.node) := by
  obtain ⟨ts, w', next, partway, log, -⟩ := cameTo_of_walk hrun
  rw [List.nil_append] at log
  rw [log]
  refine ⟨ts, w', next, partway, rfl, fun confined => ?_⟩
  obtain ⟨passed, begins, order⟩ := partway.passed confined (linked.awaits held) linked.firstChild
  exact ⟨order, begins, passed.nodup, fun before v after split n =>
    passed.not_visited_of_inserted split⟩

end SnippetTree
