import SnippetTree.Proofs.Continuing
import SnippetTree.Proofs.Courses
import SnippetTree.Proofs.Skirting

namespace SnippetTree

open Cell

namespace Visit

/-- The nodes that a visit put before its node or left in the place of it. -/
def inserted (v : Visit) : List NodeId :=
  match (v.before.links v.node).parent with
  | none => []
  | some p => (v.after.children p).filter (· ∉ v.before.children p)

/-- A visit keeps to its node. Of the nodes at or below those under walk, all that are not at or
below the visited node keep their parent, and keep their children unless that node is one of them.
Its neighbours keep their places, with other nodes before it only, and it may be gone. Of the nodes
that were there, only those from below it are below it afterwards. -/
structure Confined (v : Visit) (walked : List NodeId) : Prop where
  skirts : v.before.Skirts v.after walked [v.node]
  beside : ∀ p before after, v.before.children p = before ++ v.node :: after → ∃ new,
    v.after.children p = before ++ new ++
      if (v.after.links v.node).parent = some p then v.node :: after else after
  own : ∀ m ∈ v.before, v.after.Above v.node m → v.before.Above v.node m

/-- All visits of a course are confined, each while the node of the visit that it is below is under
walk as well. -/
inductive AllConfined : List NodeId → List (Outline Visit) → Prop
  | nil (walked : List NodeId) : AllConfined walked []
  | cons {walked : List NodeId} {v : Visit} {us ts : List (Outline Visit)} (visit : v.Confined walked)
      (below : AllConfined (v.node :: walked) us) (rest : AllConfined walked ts) :
      AllConfined walked (.node v us :: ts)

/-- A course tours `cs`: its top visits are of these nodes in turn, and below each visit are those
of a tour of the children that the visited node has just after it. -/
inductive Tours : List NodeId → List (Outline Visit) → Prop
  | nil : Tours [] []
  | cons {v : Visit} {cs : List NodeId} {us ts : List (Outline Visit)}
      (below : Tours (v.after.children v.node) us) (rest : Tours cs ts) :
      Tours (v.node :: cs) (.node v us :: ts)

end Visit

namespace Store

variable {s s₁ s₂ s' : Store} {walked ns ms cs bs : List NodeId} {a c m n p : NodeId}
  {us ts : List (Outline Visit)}

/-- What visits at and below `cs` do, while `walked` are under walk. Each visited node was at or below
`cs` or is new, and no inserted node comes from elsewhere below `walked`. No visit is of a node that
an earlier one visited or inserted. -/
structure Passed (s s' : Store) (walked cs : List NodeId) (ts : List (Outline Visit)) : Prop where
  linked : s'.WellLinked
  kept : ∀ m ∈ s, m ∈ s'
  skirts : s.Skirts s' walked cs
  visited : ∀ v ∈ Outline.labels ts, v.node ∈ s' ∧ (v.node ∈ s → s.Under cs v.node)
  inserted : ∀ v ∈ Outline.labels ts, ∀ n ∈ v.inserted,
    n ∈ s' ∧ (s.Under walked n → s.Under cs n)
  apart : (Outline.labels ts).Pairwise fun v v' => v'.node ≠ v.node ∧ v'.node ∉ v.inserted

theorem Passed.nodup (h : s.Passed s' walked cs ts) :
    ((Outline.labels ts).map Visit.node).Nodup :=
  List.pairwise_map.mpr (h.apart.imp fun h => h.1.symm)

theorem Passed.not_visited_of_inserted (h : s.Passed s' walked cs ts) {before after : List Visit}
    {v : Visit} (split : Outline.labels ts = before ++ v :: after) (hn : n ∈ v.inserted) :
    n ∉ after.map Visit.node := by
  intro hafter
  have apart := h.apart
  rw [split, List.pairwise_append, List.pairwise_cons] at apart
  obtain ⟨v', hv', rfl⟩ := List.mem_map.mp hafter
  exact (apart.2.1.1 v' hv').2 hn

theorem WellLinked.awaits (linked : s.WellLinked) (held : n ∈ s) :
    s.Awaits [n] n [] (s.children n) where
  linked := linked
  pending := rfl
  top := List.mem_singleton_self n
  held := by simpa using held
  out := by
    intro a ha
    rw [List.mem_singleton.mp ha, linked.under_children]
    exact linked.acyclic n

theorem Passed.nil (linked : s.WellLinked) (walked cs : List NodeId) : s.Passed s walked cs [] where
  linked := linked
  kept := fun _ hm => hm
  skirts := .refl s walked cs
  visited := by simp
  inserted := by simp
  apart := by simp

/-- A confined visit of the first of the nodes that are still to be visited. -/
structure Visits (s s₁ : Store) (walked : List NodeId) (p : NodeId) (bs : List NodeId) (c : NodeId)
    (cs : List NodeId) : Prop where
  awaits : s.Awaits walked p bs (c :: cs)
  linked : s₁.WellLinked
  kept : ∀ m ∈ s, m ∈ s₁
  confined : Visit.Confined ⟨c, s, s₁⟩ walked

namespace Visits

theorem skirts (h : s.Visits s₁ walked p bs c cs) : s.Skirts s₁ walked [c] := h.confined.skirts

theorem not_above (h : s.Visits s₁ walked p bs c cs) (ha : a ∈ walked) : a ≠ c ∧ ¬s₁.Above c a := by
  have out := h.awaits.out a ha
  rw [under_cons, not_or, not_or] at out
  exact ⟨out.1.1, fun above => out.1.2 (h.confined.own a (h.awaits.held a ha) above)⟩

theorem out (h : s.Visits s₁ walked p bs c cs) (hm : s.Under walked m) (hc : ¬s.Under [c] m) :
    ¬s₁.Under (s₁.children c) m := by
  rw [h.linked.under_children]
  intro above
  exact hc (under_singleton.mpr (Or.inr (h.confined.own m (hm.held h.awaits.held) above)))

theorem descend (h : s.Visits s₁ walked p bs c cs) :
    s₁.Awaits (c :: walked) c [] (s₁.children c) where
  linked := h.linked
  pending := rfl
  top := List.mem_cons_self
  held := by
    intro a ha
    rcases List.mem_cons.mp ha with rfl | ha
    · exact h.kept a (h.awaits.mem (under_of_mem List.mem_cons_self))
    · exact h.kept a (h.awaits.held a ha)
  out := by
    intro a ha
    rw [h.linked.under_children]
    rcases List.mem_cons.mp ha with rfl | ha
    · exact h.linked.acyclic a
    · exact (h.not_above ha).2

theorem top_skirted (h : s.Visits s₁ walked p bs c cs) : s.Under walked p ∧ ¬s.Under [c] p := by
  refine ⟨under_of_mem h.awaits.top, fun hc => h.awaits.out p h.awaits.top (hc.mono ?_)⟩
  simp

theorem skirts_below (h : s.Visits s₁ walked p bs c cs)
    (below : s₁.Passed s₂ (c :: walked) (s₁.children c) us) : s.Skirts s₂ walked [c] := by
  refine h.skirts.trans below.skirts (List.subset_cons_self c walked)
    (fun m hm hc => ⟨hc, h.out hm hc⟩) fun m hm hc apart => ⟨apart, fun _ d hd hdm => hc ?_⟩
  have same := (h.linked.mem_children.mp hd).symm.trans (h.linked.mem_children.mp hdm)
  exact under_singleton.mpr (Or.inl (Option.some.inj same).symm)

theorem children_top (h : s.Visits s₁ walked p bs c cs)
    (below : s₁.Passed s₂ (c :: walked) (s₁.children c) us) : s₂.children p = s₁.children p := by
  obtain ⟨hp, hc⟩ := h.top_skirted
  refine below.skirts.children p ((h.skirts.under hp hc).mono (List.subset_cons_self c walked))
    (h.out hp hc) fun d hd hdp => ?_
  have same := (h.linked.mem_children.mp hd).symm.trans (h.linked.mem_children.mp hdp)
  exact (h.not_above h.awaits.top).1 (Option.some.inj same).symm

theorem ascend (h : s.Visits s₁ walked p bs c cs)
    (below : s₁.Passed s₂ (c :: walked) (s₁.children c) us) :
    ∃ bs', s₂.Awaits walked p bs' cs := by
  obtain ⟨new, hp⟩ := h.confined.beside p bs cs h.awaits.pending
  have pending : ∃ bs', s₂.children p = bs' ++ cs := by
    rw [h.children_top below, hp]
    split
    · exact ⟨bs ++ new ++ [c], by simp⟩
    · exact ⟨bs ++ new, rfl⟩
  obtain ⟨bs', pending⟩ := pending
  refine ⟨bs', below.linked, pending, h.awaits.top, fun a ha => ?_, fun a ha => ?_⟩
  · exact below.kept a (h.kept a (h.awaits.held a ha))
  · rw [h.awaits.under_iff below.linked (h.skirts_below below)]
    exact fun hu => h.awaits.out a ha (hu.mono (List.subset_cons_self c cs))

theorem inserted (h : s.Visits s₁ walked p bs c cs) (hn : n ∈ Visit.inserted ⟨c, s, s₁⟩) :
    (s₁.links n).parent = some p ∧ (s.links n).parent ≠ some p := by
  rw [Visit.inserted, h.awaits.parent List.mem_cons_self, List.mem_filter, h.linked.mem_children,
    decide_eq_true_eq, h.awaits.linked.mem_children] at hn
  exact hn

theorem under_of_inserted (h : s.Visits s₁ walked p bs c cs)
    (hn : n ∈ Visit.inserted ⟨c, s, s₁⟩) (hw : s.Under walked n) : s.Under [c] n := by
  by_contra hc
  obtain ⟨after, before⟩ := h.inserted hn
  exact before ((h.skirts.parent n hw hc).symm.trans after)

theorem under_of_inserted_below (h : s.Visits s₁ walked p bs c cs)
    (below : s₁.Passed s₂ (c :: walked) (s₁.children c) us) {v : Visit}
    (hv : v ∈ Outline.labels us) (hn : n ∈ v.inserted) (hw : s.Under walked n) :
    s.Under [c] n := by
  by_contra hc
  have hw₁ := (h.skirts.under hw hc).mono (List.subset_cons_self c walked)
  exact h.out hw hc ((below.inserted v hv n hn).2 hw₁)

theorem under_of_visited_below (h : s.Visits s₁ walked p bs c cs)
    (below : s₁.Passed s₂ (c :: walked) (s₁.children c) us) {v : Visit}
    (hv : v ∈ Outline.labels us) (hs : v.node ∈ s) : s.Under [c] v.node := by
  have above := (below.visited v hv).2 (h.kept _ hs)
  rw [h.linked.under_children] at above
  exact under_singleton.mpr (Or.inr (h.confined.own _ hs above))

theorem under_of_visited_after (h : s.Visits s₁ walked p bs c cs)
    (below : s₁.Passed s₂ (c :: walked) (s₁.children c) us) (rest : s₂.Passed s' walked cs ts)
    {v : Visit} (hv : v ∈ Outline.labels ts) (hs : v.node ∈ s₂) : s.Under cs v.node :=
  (h.awaits.under_iff below.linked (h.skirts_below below)).mp ((rest.visited v hv).2 hs)

theorem apart_below (h : s.Visits s₁ walked p bs c cs)
    (below : s₁.Passed s₂ (c :: walked) (s₁.children c) us) {v : Visit}
    (hv : v ∈ Outline.labels us) : v.node ≠ c ∧ v.node ∉ Visit.inserted ⟨c, s, s₁⟩ := by
  have above : v.node ∈ s₁ → s₁.Above c v.node := fun hs =>
    h.linked.under_children.mp ((below.visited v hv).2 hs)
  constructor
  · intro he
    have hc : c ∈ s₁ := h.kept c (h.awaits.mem (under_of_mem List.mem_cons_self))
    rw [he] at above
    exact h.linked.acyclic c (above hc)
  · intro hn
    have hp := (h.inserted hn).1
    obtain ⟨hne, out⟩ := h.not_above h.awaits.top
    rcases (above_iff_of_parent hp).mp (above (mem_of_parent hp)) with he | ha
    · exact hne he.symm
    · exact out ha

theorem apart_after (h : s.Visits s₁ walked p bs c cs)
    (below : s₁.Passed s₂ (c :: walked) (s₁.children c) us) (rest : s₂.Passed s' walked cs ts)
    {v : Visit} (hv : v ∈ Outline.labels ts) :
    v.node ≠ c ∧ v.node ∉ Visit.inserted ⟨c, s, s₁⟩ := by
  have apart : v.node ∈ s₁ → s.Under cs v.node := fun hs =>
    h.under_of_visited_after below rest hv (below.kept _ hs)
  constructor
  · intro he
    have hc : c ∈ s₁ := h.kept c (h.awaits.mem (under_of_mem List.mem_cons_self))
    rw [he] at apart
    exact h.awaits.apart (apart hc) (under_of_mem List.mem_cons_self)
  · intro hn
    have under := apart (mem_of_parent (h.inserted hn).1)
    have hw := h.awaits.under (under.mono (List.subset_cons_self c cs))
    exact h.awaits.apart under (h.under_of_inserted hn hw)

theorem apart_across (h : s.Visits s₁ walked p bs c cs)
    (below : s₁.Passed s₂ (c :: walked) (s₁.children c) us) (rest : s₂.Passed s' walked cs ts)
    {v v' : Visit} (hv : v ∈ Outline.labels us) (hv' : v' ∈ Outline.labels ts) :
    v'.node ≠ v.node ∧ v'.node ∉ v.inserted := by
  have apart : v'.node ∈ s₂ → s.Under cs v'.node := h.under_of_visited_after below rest hv'
  constructor
  · intro he
    have under := apart (he ▸ (below.visited v hv).1)
    rw [he] at under
    have hs := h.awaits.mem (under.mono (List.subset_cons_self c cs))
    exact h.awaits.apart under (h.under_of_visited_below below hv hs)
  · intro hn
    have under := apart (below.inserted v hv _ hn).1
    have hw := h.awaits.under (under.mono (List.subset_cons_self c cs))
    exact h.awaits.apart under (h.under_of_inserted_below below hv hn hw)

theorem passed (h : s.Visits s₁ walked p bs c cs)
    (below : s₁.Passed s₂ (c :: walked) (s₁.children c) us) (rest : s₂.Passed s' walked cs ts) :
    s.Passed s' walked (c :: cs) (.node ⟨c, s, s₁⟩ us :: ts) := by
  have split : ∀ {m}, ¬s.Under (c :: cs) m → ¬s.Under [c] m ∧ ¬s.Under cs m := fun hm => by
    rwa [under_cons, not_or, ← under_singleton] at hm
  have later : ∀ {m}, s₂.Under cs m ↔ s.Under cs m := fun {m} =>
    h.awaits.under_iff below.linked (h.skirts_below below)
  have first : ∀ {m}, s.Under [c] m → s.Under (c :: cs) m := fun hm => hm.mono (by simp)
  have others : ∀ {m}, s.Under cs m → s.Under (c :: cs) m := fun hm =>
    hm.mono (List.subset_cons_self c cs)
  refine ⟨rest.linked, fun m hm => rest.kept m (below.kept m (h.kept m hm)), ?_,
    fun v hv => ?_, fun v hv n hn => ?_, ?_⟩
  · refine (h.skirts_below below).trans rest.skirts (List.Subset.refl walked)
      (fun m _ hm => ⟨(split hm).1, fun hu => (split hm).2 (later.mp hu)⟩) fun m _ _ apart => ?_
    refine ⟨fun d hd => apart d (by simp_all), fun same d hd => ?_⟩
    rw [same]
    exact apart d (List.mem_cons_of_mem c hd)
  · rw [Outline.labels_cons, List.mem_cons, List.mem_append] at hv
    rcases hv with rfl | hv | hv
    · have hc := under_of_mem (s := s) (List.mem_cons_self (a := c) (l := cs))
      exact ⟨rest.kept c (below.kept c (h.kept c (h.awaits.mem hc))), fun _ => hc⟩
    · exact ⟨rest.kept _ (below.visited v hv).1, fun hs =>
        first (h.under_of_visited_below below hv hs)⟩
    · exact ⟨(rest.visited v hv).1, fun hs =>
        others (h.under_of_visited_after below rest hv (below.kept _ (h.kept _ hs)))⟩
  · rw [Outline.labels_cons, List.mem_cons, List.mem_append] at hv
    rcases hv with rfl | hv | hv
    · exact ⟨rest.kept n (below.kept n (mem_of_parent (h.inserted hn).1)), fun hw =>
        first (h.under_of_inserted hn hw)⟩
    · exact ⟨rest.kept n (below.inserted v hv n hn).1, fun hw =>
        first (h.under_of_inserted_below below hv hn hw)⟩
    · refine ⟨(rest.inserted v hv n hn).1, fun hw => ?_⟩
      by_contra out
      have hw₂ := (h.skirts_below below).under hw (split out).1
      exact (split out).2 (later.mp ((rest.inserted v hv n hn).2 hw₂))
  · rw [Outline.labels_cons, List.pairwise_cons, List.pairwise_append]
    refine ⟨fun v hv => ?_, below.apart, rest.apart, fun v hv v' hv' =>
      h.apart_across below rest hv hv'⟩
    rcases List.mem_append.mp hv with hv | hv
    · exact h.apart_below below hv
    · exact h.apart_after below rest hv

end Visits

theorem Awaits.visits {σ : Type} {visit : NodeId → Script σ Empty Unit} {w w₁ : World σ}
    (h : w.store.Awaits walked p bs (c :: cs)) (visited : (visit c).run w = (.done (), w₁))
    (confined : Visit.Confined ⟨c, w.store, w₁.store⟩ walked) :
    w.store.Visits w₁.store walked p bs c cs := by
  have linked := Script.wellLinked_run (p := visit c) h.linked
  have kept := Script.held_run (visit c) w
  rw [visited] at linked kept
  exact ⟨h, linked, kept, confined⟩

end Store

namespace Script

variable {σ : Type} {visit : NodeId → Script σ Empty Unit} {w w' : World σ} {start : Option NodeId}
  {ts : List (Outline Visit)} {walked bs cs : List NodeId} {p : NodeId}

/-- A course of confined visits is a tour of the children that are to be visited. -/
theorem Course.toured (h : Course visit w start ts w') (confined : Visit.AllConfined walked ts)
    (awaits : w.store.Awaits walked p bs cs) (hstart : start = cs.head?) :
    w.store.Passed w'.store walked cs ts ∧ Visit.Tours cs ts := by
  induction h generalizing walked bs cs p with
  | nil w =>
    obtain rfl : cs = [] := List.head?_eq_none_iff.mp hstart.symm
    exact ⟨.nil awaits.linked walked [], .nil⟩
  | @cons c w w₁ w₂ w' us ts visited _ _ below rest =>
    obtain ⟨cs, rfl⟩ := List.head?_eq_some_iff.mp hstart.symm
    cases confined with
    | cons confined hbelow hrest =>
      have h := awaits.visits visited confined
      obtain ⟨passed, tours⟩ := below hbelow h.descend h.linked.firstChild
      obtain ⟨bs', ascends⟩ := h.ascend passed
      obtain ⟨passed', tours'⟩ :=
        rest hrest ascends (awaits.linked.nextSibling_eq awaits.pending)
      exact ⟨h.passed passed passed', .cons (v := ⟨c, w.store, w₁.store⟩) tours tours'⟩

end Script

namespace Visit

variable {s : Store} {cs : List NodeId} {ts : List (Outline Visit)} {us : List (Outline Cell)}

theorem Tours.subset (h : Tours cs ts) : cs ⊆ (Outline.labels ts).map node := by
  induction h with
  | nil => exact List.nil_subset _
  | @cons v cs us ts _ _ _ rest =>
    intro c hc
    rcases List.mem_cons.mp hc with rfl | hc
    · simp
    · rw [Outline.labels_cons, List.map_cons, List.map_append]
      exact List.mem_cons_of_mem _ (List.mem_append_right _ (rest hc))

/-- A tour that visits no node twice visits the toured nodes in their order. -/
theorem Tours.filter_visited (h : Tours cs ts) (nodup : ((Outline.labels ts).map node).Nodup) :
    ((Outline.labels ts).map node).filter (· ∈ cs) = cs := by
  induction h with
  | nil => rfl
  | @cons v cs us ts _ hts _ rest =>
    rw [Outline.labels_cons, List.map_cons, List.map_append, List.nodup_cons,
      List.nodup_append] at nodup
    obtain ⟨first, -, nodup, apart⟩ := nodup
    have below : ((Outline.labels us).map node).filter (· ∈ v.node :: cs) = [] := by
      rw [List.filter_eq_nil_iff]
      intro m hm hc
      rcases List.mem_cons.mp (of_decide_eq_true hc) with rfl | hc
      · exact first (List.mem_append_left _ hm)
      · exact apart m hm m (hts.subset hc) rfl
    have after : ((Outline.labels ts).map node).filter (· ∈ v.node :: cs) =
        ((Outline.labels ts).map node).filter (· ∈ cs) := by
      refine List.filter_congr fun m hm => ?_
      have hne : m ≠ v.node := fun he => first (List.mem_append_right _ (he ▸ hm))
      simp [hne]
    rw [Outline.labels_cons, List.map_cons, List.map_append, List.filter_cons_of_pos (by simp),
      List.filter_append, below, after, rest nodup, List.nil_append]

/-- Where all visited nodes keep the children that they had, a tour visits a forest in document
order. -/
theorem Tours.visited_eq (h : Tours cs ts) (shown : s.Shows us) (top : roots us = cs)
    (same : ∀ v ∈ Outline.labels ts, v.after.children v.node = s.children v.node) :
    (Outline.labels ts).map node = ids us := by
  induction h generalizing us with
  | nil =>
    obtain rfl : us = [] := List.map_eq_nil_iff.mp top
    rfl
  | @cons v cs vs ts _ _ below rest =>
    cases shown with
    | nil => cases top
    | @cons a ds us _ children shownds shownus =>
      rw [roots_cons, List.cons.injEq] at top
      obtain ⟨ha, top⟩ := top
      have hds : roots ds = v.after.children v.node := by
        rw [same v (by simp), ← ha, children]
      rw [Outline.labels_cons, List.map_cons, List.map_append, ids_cons,
        below shownds hds fun v' hv' => same v' (by simp [hv']),
        rest shownus top fun v' hv' => same v' (by simp [hv']), ha]

theorem confined_of_elsewhere {s s₁ : Store} {c p : NodeId} {walked : List NodeId}
    (elsewhere before new after : List NodeId) (linked : s.WellLinked)
    (listed : ∀ m, s.Under walked m → ¬s.Under [c] m → m ∈ elsewhere)
    (parent : ∀ m ∈ elsewhere, (s₁.links m).parent = (s.links m).parent)
    (children : ∀ m ∈ elsewhere, c ∉ s.children m → s₁.children m = s.children m)
    (place : s.children p = before ++ c :: after)
    (moved : s₁.children p =
      before ++ new ++ if (s₁.links c).parent = some p then c :: after else after)
    (own : ∀ m ∈ s, s₁.Above c m → s.Above c m) : Visit.Confined ⟨c, s, s₁⟩ walked where
  skirts := ⟨fun m hm hc => parent m (listed m hm hc), fun m hm hc apart =>
    children m (listed m hm hc) (apart c (List.mem_singleton_self c))⟩
  beside := by
    intro q before' after' place'
    have hp : (s.links c).parent = some p := linked.mem_children.mp (by simp [place])
    have hq : (s.links c).parent = some q := linked.mem_children.mp (by simp [place'])
    obtain rfl : p = q := Option.some.inj (hp.symm.trans hq)
    have nodup := (linked.siblings p).nodup
    rw [place, List.nodup_middle, List.nodup_cons, List.mem_append, not_or] at nodup
    obtain ⟨rfl, -, rfl⟩ := (List.append_cons_inj_of_notMem nodup.1.1 nodup.1.2).mp
      (place.symm.trans place')
    exact ⟨new, moved⟩
  own := own

/-- A visit that changes no links is confined. -/
theorem confined_of_links {s s₁ : Store} (linked : s.WellLinked)
    (same : ∀ m, s₁.links m = s.links m) (c : NodeId) (walked : List NodeId) :
    Visit.Confined ⟨c, s, s₁⟩ walked where
  skirts := ⟨fun m _ _ => by rw [same], fun m _ _ _ => linked.children_congr same m⟩
  beside := by
    intro p before after hp
    have parent : (s.links c).parent = some p := linked.mem_children.mp (by simp [hp])
    refine ⟨[], ?_⟩
    rw [linked.children_congr same, same, if_pos parent, List.append_nil, hp]
  own := fun m _ above => (Store.above_congr fun k _ => by rw [same]).mp above

end Visit

namespace Script

variable {σ : Type} {visit : NodeId → Script σ Empty Unit} {w w' : World σ} {start : Option NodeId}
  {ts : List (Outline Visit)} {us : List (Outline Cell)} {p r : NodeId} {s : Store}

/-- Where no visit changes links, the links are the same all along, and all visits are confined. -/
theorem Course.still (h : Course visit w start ts w') (linked : w.store.WellLinked)
    (same : ∀ v ∈ Outline.labels ts, ∀ m, v.after.links m = v.before.links m) :
    (∀ m, w'.store.links m = w.store.links m) ∧
    (∀ v ∈ Outline.labels ts, ∀ m, v.after.links m = w.store.links m) ∧
    ∀ walked, Visit.AllConfined walked ts := by
  induction h with
  | nil w => exact ⟨fun _ => rfl, by simp, .nil⟩
  | @cons c w w₁ w₂ w' us ts visited _ _ below rest =>
    simp only [Outline.labels_cons, List.mem_cons, List.mem_append, forall_eq_or_imp] at same ⊢
    obtain ⟨first, same⟩ := same
    have linked₁ : w₁.store.WellLinked := linked.congr first
    obtain ⟨links₂, after₂, confined₂⟩ := below linked₁ fun v hv => same v (Or.inl hv)
    have links : ∀ m, w₂.store.links m = w.store.links m := fun m => (links₂ m).trans (first m)
    obtain ⟨links', after', confined'⟩ := rest (linked.congr links) fun v hv => same v (Or.inr hv)
    refine ⟨fun m => (links' m).trans (links m), ⟨first, fun v hv m => ?_⟩, fun walked =>
      .cons (Visit.confined_of_links linked first c walked) (confined₂ _) (confined' walked)⟩
    rcases hv with hv | hv
    · exact (after₂ v hv m).trans (first m)
    · exact (after' v hv m).trans (links m)

/-- A visitor that always succeeds and changes no links has a course. -/
theorem exists_course_of_still {holds : World σ → Prop}
    (still : ∀ c w, holds w → ∃ w', (visit c).run w = (.done (), w') ∧ holds w' ∧
      ∀ m, w'.store.links m = w.store.links m) (linked : s.WellLinked) (shown : s.Shows us)
    (before : List NodeId) (children : s.children p = before ++ roots us) {w : World σ}
    (begun : holds w) (links : ∀ m, w.store.links m = s.links m) :
    ∃ ts w', Course visit w (roots us).head? ts w' ∧ holds w' ∧
      (∀ m, w'.store.links m = s.links m) ∧
      ∀ v ∈ Outline.labels ts, ∀ m, v.after.links m = v.before.links m := by
  induction shown generalizing p before w with
  | nil => exact ⟨[], w, .nil w, begun, links, by simp⟩
  | @cons a cs us _ own _ _ below rest =>
    obtain ⟨w₁, visited, begun₁, first⟩ := still a.id w begun
    have links₁ : ∀ m, w₁.store.links m = s.links m := fun m => (first m).trans (links m)
    obtain ⟨vs, w₂, course, begun₂, links₂, same⟩ := below [] own begun₁ links₁
    obtain ⟨ts, w', course', begun', links', same'⟩ := rest (before ++ [a.id])
      (by simpa using children) begun₂ links₂
    have hfirst : (w₁.store.links a.id).firstChild = (roots cs).head? := by
      rw [links₁, linked.firstChild, own]
    have hnext : (w.store.links a.id).nextSibling = (roots us).head? := by
      rw [links]
      exact linked.nextSibling_eq children
    rw [← hfirst] at course
    rw [← hnext] at course'
    refine ⟨_, w', .cons visited course course', begun', links', fun v hv => ?_⟩
    rw [Outline.labels_cons, List.mem_cons, List.mem_append] at hv
    rcases hv with rfl | hv | hv
    · exact first
    · exact same v hv
    · exact same' v hv

end Script

open Script

/-- A walk that ends has a course, and a walk that has a course ends with just the visits of the
course. Where each of these is confined to what is below its node, to the place of the node and to
nodes that it puts before that one, the children that the top node had at first are visited once
each and in their order; just after the visit of a node the children that it then has are walked; no
node is visited twice, and none after it was put before a visited one. A visitor that always
succeeds and changes no links makes the walk end, and where no visit changes links, all nodes below
the top one are visited in document order. -/
theorem walk_tours {σ : Type} (visit : NodeId → Script σ Empty Unit) (w : World σ)
    (linked : w.store.WellLinked) (r : NodeId) (held : r ∈ w.store) :
    let s := w.store
    let first := (s.links r).firstChild
    (∀ steps w' log, (walk steps r (noting visit)).run ⟨s, (w.state, [])⟩ =
        (.done (), ⟨w'.store, (w'.state, log)⟩) →
      ∃ ts, Course visit w first ts w' ∧ Outline.labels ts = log) ∧
    (∀ ts w', Course visit w first ts w' →
      let visits := Outline.labels ts
      let visited := visits.map Visit.node
      (∃ enough, ∀ steps, enough ≤ steps → (walk steps r (noting visit)).run ⟨s, (w.state, [])⟩ =
        (.done (), ⟨w'.store, (w'.state, visits)⟩)) ∧
      (Visit.AllConfined [r] ts →
        visited.filter (· ∈ s.children r) = s.children r ∧
        Visit.Tours (s.children r) ts ∧
        visited.Nodup ∧
        ∀ before v after, visits = before ++ v :: after →
          ∀ n ∈ v.inserted, n ∉ after.map Visit.node) ∧
      ((∀ v ∈ visits, ∀ m, v.after.links m = v.before.links m) →
        visited = s.below r ∧ visited.Nodup)) ∧
    ∀ holds : World σ → Prop, holds w →
      (∀ c w₁, holds w₁ → ∃ w₂, (visit c).run w₁ = (.done (), w₂) ∧ holds w₂ ∧
        ∀ m, w₂.store.links m = w₁.store.links m) →
      ∃ ts w', Course visit w first ts w' ∧
        ∀ v ∈ Outline.labels ts, ∀ m, v.after.links m = v.before.links m := by
  intro s first
  have toured : ∀ ts w', Course visit w first ts w' → Visit.AllConfined [r] ts →
      s.Passed w'.store [r] (s.children r) ts ∧ Visit.Tours (s.children r) ts :=
    fun ts w' course confined => course.toured confined (linked.awaits held) linked.firstChild
  refine ⟨fun steps w' log => exists_course_of_walk_noting, fun ts w' course => ?_,
    fun holds begun still => ?_⟩
  · refine ⟨course.run_walk_noting, fun confined => ?_, fun same => ?_⟩
    · obtain ⟨passed, tours⟩ := toured ts w' course confined
      exact ⟨tours.filter_visited passed.nodup, tours, passed.nodup, fun before v after split n =>
        passed.not_visited_of_inserted split⟩
    · obtain ⟨-, links, confined⟩ := course.still linked same
      obtain ⟨passed, tours⟩ := toured ts w' course (confined [r])
      refine ⟨?_, passed.nodup⟩
      have shown : s.Shows (s.forest r) := linked.shows_forest
      rw [Store.below_eq shown linked linked.children_eq_forest]
      exact tours.visited_eq shown linked.children_eq_forest.symm fun v hv =>
        linked.children_congr (links v hv) v.node
  · obtain ⟨ts, w', course, -, -, same⟩ := exists_course_of_still still linked linked.shows_forest
      [] linked.children_eq_forest begun fun _ => rfl
    rw [← linked.children_eq_forest, ← linked.firstChild] at course
    exact ⟨ts, w', course, same⟩

/-- Two nodes are below a node, and the first of them has a third one below it. The visit of the
first one puts a new node in its place, which takes over the third one. Then just the two nodes are
visited. -/
theorem walk_tours_replaced :
    let nested : Script Unit Empty Unit := do
      for name in ["a", "b", "c", "d"] do
        perform (.addNode (some name) none false none)
      for (p, c) in [(0, 1), (0, 2), (1, 3)] do
        perform (.append ⟨p⟩ ⟨c⟩)
    let visit : NodeId → Script Unit Empty Unit := fun c =>
      if c = ⟨1⟩ then do
        perform (.addNode (some "e") none false none)
        perform (.insertBefore ⟨0⟩ ⟨4⟩ (some c))
        perform (.append ⟨4⟩ ⟨3⟩)
        perform (.detach c)
      else pure ()
    let w : World Unit := (nested.run { store := {}, state := () }).2
    w.store.WellLinked ∧ ⟨0⟩ ∈ w.store ∧
      ∃ w' ts, Course visit w (w.store.links ⟨0⟩).firstChild ts w' ∧
      Visit.AllConfined [⟨0⟩] ts ∧ (Outline.labels ts).map Visit.node = [⟨1⟩, ⟨2⟩] ∧
      (∃ v ∈ Outline.labels ts, v.inserted = [⟨4⟩]) ∧
      ((Outline.labels ts).map Visit.node).filter (· ∈ w.store.children ⟨0⟩) = w.store.children ⟨0⟩ ∧
      w'.store.children ⟨0⟩ = [⟨4⟩, ⟨2⟩] ∧ w'.store.children ⟨4⟩ = [⟨3⟩] := by
  intro nested visit w
  have linked : w.store.WellLinked := (run_sound Store.sound_empty).linked
  have held : ⟨0⟩ ∈ w.store := by decide
  let w₁ : World Unit := ((visit ⟨1⟩).run w).2
  have linked₁ : w₁.store.WellLinked := wellLinked_run linked
  have course : Course visit w (w.store.links ⟨0⟩).firstChild
      [.node ⟨⟨1⟩, w.store, w₁.store⟩ [], .node ⟨⟨2⟩, w₁.store, w₁.store⟩ []] w₁ := by
    have first : (w.store.links ⟨0⟩).firstChild = some ⟨1⟩ := by decide
    have next : (w.store.links ⟨1⟩).nextSibling = some ⟨2⟩ := by decide
    have last : (w₁.store.links ⟨2⟩).nextSibling = none := by decide
    have below : (w₁.store.links ⟨1⟩).firstChild = none := by decide
    have below' : (w₁.store.links ⟨2⟩).firstChild = none := by decide
    have visited : (visit ⟨1⟩).run w = (.done (), w₁) := run_eq_done (by decide)
    have visited' : (visit ⟨2⟩).run w₁ = (.done (), w₁) := rfl
    have rest : Course visit w₁ (w.store.links ⟨1⟩).nextSibling
        [.node ⟨⟨2⟩, w₁.store, w₁.store⟩ []] w₁ := by
      rw [next]
      exact .cons visited' (by rw [below']; exact .nil w₁) (by rw [last]; exact .nil w₁)
    rw [first]
    exact .cons visited (by rw [below]; exact .nil w₁) rest
  have apart : ∀ m, w.store.Under [⟨0⟩] m → ¬w.store.Under [⟨1⟩] m → m = ⟨0⟩ ∨ m = ⟨2⟩ := by
    rintro ⟨i⟩ hm hc
    have size : w.store.nodes.size = 4 := by decide
    have hi : i < w.store.nodes.size := hm.held (by simpa using held)
    have hne : i ≠ 1 := by
      rintro rfl
      exact hc (Store.under_of_mem (List.mem_singleton_self _))
    have hne' : i ≠ 3 := by
      rintro rfl
      exact hc ⟨⟨1⟩, List.mem_singleton_self _, Or.inr (.single (by decide))⟩
    simp only [NodeId.mk.injEq]
    omega
  have alone : ∀ m, ¬w₁.store.Above ⟨1⟩ m := by
    intro m above
    obtain ⟨c, hc, -⟩ := linked₁.above_iff.mp above
    have none : w₁.store.children ⟨1⟩ = [] := by decide
    rw [none] at hc
    cases hc
  have confined : Visit.Confined ⟨⟨1⟩, w.store, w₁.store⟩ [⟨0⟩] :=
    Visit.confined_of_elsewhere (p := ⟨0⟩) [⟨0⟩, ⟨2⟩] [] [⟨4⟩] [⟨2⟩] linked
      (fun m hm hc => by simpa using apart m hm hc) (by decide) (by decide +kernel) (by decide)
      (by decide +kernel) fun m _ above => absurd above (alone m)
  have still : Visit.Confined ⟨⟨2⟩, w₁.store, w₁.store⟩ [⟨0⟩] :=
    Visit.confined_of_links linked₁ (fun _ => rfl) ⟨2⟩ [⟨0⟩]
  have all : Visit.AllConfined [⟨0⟩]
      [.node ⟨⟨1⟩, w.store, w₁.store⟩ [], .node ⟨⟨2⟩, w₁.store, w₁.store⟩ []] :=
    .cons confined (.nil _) (.cons still (.nil _) (.nil _))
  obtain ⟨-, tours, -⟩ := walk_tours visit w linked ⟨0⟩ held
  obtain ⟨-, confines, -⟩ := tours _ w₁ course
  exact ⟨linked, held, w₁, _, course, all, rfl, ⟨_, List.mem_cons_self, by decide⟩, (confines all).1,
    by decide, by decide +kernel⟩

end SnippetTree
