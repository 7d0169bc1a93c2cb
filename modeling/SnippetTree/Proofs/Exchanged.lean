import SnippetTree.Proofs.Similar

namespace SnippetTree

open Outline

namespace Cell

mutual

def exchangeTree (f : NodeId → Option (List (Outline Cell))) : Outline Cell → List (Outline Cell)
  | .node a cs => (f a.id).getD [.node a (exchange f cs)]

/-- The forest with the trees of nodes that have a substitute exchanged for that, from the top. -/
def exchange (f : NodeId → Option (List (Outline Cell))) :
    List (Outline Cell) → List (Outline Cell)
  | [] => []
  | t :: ts => exchangeTree f t ++ exchange f ts

end

def single (n : NodeId) (us : List (Outline Cell)) : NodeId → Option (List (Outline Cell)) :=
  Function.update (fun _ => none) n (some us)

variable {f f' : NodeId → Option (List (Outline Cell))} {n : NodeId} {a : Cell}
  {cs ts us : List (Outline Cell)}

@[simp] theorem single_self : single n us n = some us := Function.update_self ..

theorem single_of_ne {m : NodeId} (h : m ≠ n) : single n us m = none := Function.update_of_ne h ..

@[simp] theorem exchange_nil : exchange f [] = [] := rfl

theorem exchange_cons_of_some (h : f a.id = some us) :
    exchange f (.node a cs :: ts) = us ++ exchange f ts := by
  rw [exchange, exchangeTree, h, Option.getD_some]

theorem exchange_cons_of_none (h : f a.id = none) :
    exchange f (.node a cs :: ts) = .node a (exchange f cs) :: exchange f ts := by
  rw [exchange, exchangeTree, h, Option.getD_none, List.singleton_append]

theorem exchange_append (ts us : List (Outline Cell)) :
    exchange f (ts ++ us) = exchange f ts ++ exchange f us := by
  induction ts with
  | nil => rfl
  | cons t ts ih => rw [List.cons_append, exchange, exchange, ih, List.append_assoc]

theorem exchange_eq_self (h : ∀ m ∈ ids ts, f m = none) : exchange f ts = ts := by
  induction ts using forest_induction with
  | nil => rfl
  | cons a cs ts ihc iht =>
    rw [exchange_cons_of_none (h a.id (by simp)), ihc fun m hm => h m (by simp [hm]),
      iht fun m hm => h m (by simp [hm])]

theorem roots_exchange (f : NodeId → Option (List (Outline Cell))) (ts : List (Outline Cell)) :
    roots (exchange f ts) = (roots ts).flatMap fun n => ((f n).map roots).getD [n] := by
  induction ts with
  | nil => rfl
  | cons t ts ih =>
    obtain ⟨a, cs⟩ := t
    rw [roots_cons, List.flatMap_cons, ← ih]
    cases h : f a.id with
    | none => rw [exchange_cons_of_none h, roots_cons, Option.map_none, Option.getD_none,
        List.singleton_append]
    | some us => rw [exchange_cons_of_some h, roots_append, Option.map_some, Option.getD_some]

theorem flatMap_of_none {ns : List NodeId} (h : ∀ r ∈ ns, f r = none) :
    (ns.flatMap fun n => ((f n).map roots).getD [n]) = ns := by
  induction ns with
  | nil => rfl
  | cons n ns ih =>
    rw [List.flatMap_cons, ih fun r hr => h r (by simp [hr]), h n (by simp), Option.map_none,
      Option.getD_none, List.singleton_append]

theorem exchange_exchange (apart : ∀ m ∈ ids us, f m = none) (ts : List (Outline Cell)) :
    exchange f (exchange (single n us) ts) = exchange (Function.update f n (some us)) ts := by
  induction ts using forest_induction with
  | nil => rfl
  | cons a cs ts ihc iht =>
    by_cases ha : a.id = n
    · subst ha
      rw [exchange_cons_of_some single_self, exchange_append, exchange_eq_self apart, iht,
        exchange_cons_of_some (Function.update_self ..)]
    · have hupdate : Function.update f n (some us) a.id = f a.id := Function.update_of_ne ha ..
      rw [exchange_cons_of_none (single_of_ne ha)]
      cases h : f a.id with
      | none => rw [exchange_cons_of_none h, exchange_cons_of_none (hupdate.trans h), ihc, iht]
      | some vs => rw [exchange_cons_of_some h, exchange_cons_of_some (hupdate.trans h), iht]

theorem similar_exchange {R : Cell → Cell → Prop} (refl : ∀ a, R a a)
    (same : ∀ n, Option.Rel (Similar R) (f n) (f' n)) (ts : List (Outline Cell)) :
    Similar R (exchange f ts) (exchange f' ts) := by
  induction ts using forest_induction with
  | nil => exact .nil
  | cons a cs ts ihc iht =>
    have hsame := same a.id
    cases h : f a.id with
    | none =>
      rw [h] at hsame
      have h' : f' a.id = none := by
        cases hsame' : f' a.id with
        | none => rfl
        | some us => rw [hsame'] at hsame; cases hsame
      rw [exchange_cons_of_none h, exchange_cons_of_none h']
      exact .cons (refl a) ihc iht
    | some us =>
      rw [h] at hsame
      obtain ⟨us', h', hus⟩ : ∃ us', f' a.id = some us' ∧ Similar R us us' := by
        cases hsame' : f' a.id with
        | none => rw [hsame'] at hsame; cases hsame
        | some us' =>
          rw [hsame'] at hsame
          cases hsame with
          | some hus => exact ⟨us', rfl, hus⟩
      rw [exchange_cons_of_some h, exchange_cons_of_some h']
      exact hus.append iht

end Cell

open Cell

namespace Store

variable {s s' : Store} {a : Cell} {cs ts us : List (Outline Cell)} {n m p root : NodeId}
  {before after : List NodeId}

/-- The nodes are different, and neither is above the other. -/
def Apart (s : Store) (n m : NodeId) : Prop := n ≠ m ∧ ¬s.Above n m ∧ ¬s.Above m n

theorem Apart.symm (h : s.Apart n m) : s.Apart m n := ⟨h.1.symm, h.2.2, h.2.1⟩

/-- The node is neither the other one nor below it. -/
def Outside (s : Store) (n m : NodeId) : Prop := m ≠ n ∧ ¬s.Above n m

theorem WellLinked.outside_of_above (linked : s.WellLinked) (h : s.Above root n) :
    s.Outside n root := by
  refine ⟨?_, fun h' => linked.acyclic root (h.trans h')⟩
  rintro rfl
  exact linked.acyclic root h

/-- From `s` to `s'`, the tree below `p` was exchanged for `us`, whose nodes are from that tree or
new, and nothing else changed. -/
structure Exchanged (s s' : Store) (a : Cell) (cs : List (Outline Cell)) (p : NodeId)
    (before after : List NodeId) (us : List (Outline Cell)) : Prop where
  frame : s.Frame s' (ids [.node a cs]) (p :: ids [.node a cs])
  shown : s'.Shows us
  origin : ∀ m ∈ ids us, m ∈ ids [.node a cs] ∨ m ∉ s
  children : s'.children p = before ++ (roots us ++ after)

namespace Stands

theorem mem_ids_iff (h : s.Stands a cs p before after) :
    m ∈ ids [.node a cs] ↔ m = a.id ∨ s.Above a.id m := by
  rw [ids_singleton, List.mem_cons, h.below.mem_ids_iff_above h.linked h.own]

theorem not_mem_of_outside (h : s.Stands a cs p before after) (out : s.Outside a.id m) :
    m ∉ ids [.node a cs] := by
  rw [h.mem_ids_iff, not_or]
  exact out

theorem cells_eq (h : s.Stands a cs p before after) : s.cells a.id = .node a cs := by
  rw [h.below.cells_eq h.linked h.own, h.element]

theorem of_parent (linked : s.WellLinked) (hp : (s.links n).parent = some p) :
    ∃ before after, s.Stands ⟨n, s.element n⟩ (s.forest n) p before after := by
  obtain ⟨before, after, hc⟩ := List.append_of_mem (linked.mem_children.mpr hp)
  exact ⟨before, after, linked, .cons rfl linked.children_eq_forest linked.shows_forest .nil, hc⟩

end Stands

namespace Exchanged

theorem shows_exchange (h : s.Exchanged s' a cs p before after us)
    (stands : s.Stands a cs p before after) (shown : s.Shows ts) (held : ∀ r ∈ roots ts, r ∈ s)
    (top : ∀ r ∈ roots ts, ¬s.Above a.id r) : s'.Shows (exchange (single a.id us) ts) := by
  induction shown with
  | nil => exact .nil
  | @cons b ds ts element children below rest ihc iht =>
    have hrest := iht (fun r hr => held r (by simp [hr])) fun r hr => top r (by simp [hr])
    by_cases hb : b.id = a.id
    · rw [exchange_cons_of_some (by rw [hb, single_self])]
      exact h.shown.append hrest
    have hout : b.id ∉ ids [.node a cs] := stands.not_mem_of_outside ⟨hb, top b.id (by simp)⟩
    have hheld : b.id ∈ s := held b.id (by simp)
    have hparent : ∀ r ∈ roots ds, (s.links r).parent = some b.id := fun r hr =>
      stands.linked.mem_children.mp (children ▸ hr)
    rw [exchange_cons_of_none (single_of_ne hb)]
    refine .cons ((h.frame.element b.id hheld hout).trans element) ?_
      (ihc (fun r hr => mem_of_parent (hparent r hr)) fun r hr ha => ?_) hrest
    · by_cases hp : b.id = p
      · -- The node is the one below which the tree was exchanged.
        have hds : roots ds = before ++ a.id :: after := by rw [← children, hp, stands.children]
        have hnodup : (before ++ a.id :: after).Nodup :=
          stands.children ▸ (stands.linked.siblings p).nodup
        rw [List.nodup_append, List.nodup_cons] at hnodup
        have hbefore : ∀ r ∈ before, single a.id us r = none := fun r hr =>
          single_of_ne fun he => hnodup.2.2 r hr a.id (by simp) he
        have hafter : ∀ r ∈ after, single a.id us r = none := fun r hr =>
          single_of_ne fun he => hnodup.2.1.1 (he ▸ hr)
        rw [hp, h.children, roots_exchange, hds, List.flatMap_append, List.flatMap_cons,
          flatMap_of_none hbefore, flatMap_of_none hafter, single_self, Option.map_some,
          Option.getD_some]
      · have hmoved : b.id ∉ p :: ids [.node a cs] := by
          rw [List.mem_cons, not_or]
          exact ⟨hp, hout⟩
        rw [h.frame.children b.id hheld hmoved, children, roots_exchange,
          flatMap_of_none fun r hr => ?_]
        refine single_of_ne fun he => hp ?_
        have hr' := hparent r hr
        rw [he, stands.parent] at hr'
        exact (Option.some.inj hr').symm
    · rcases (above_iff_of_parent (hparent r hr)).mp ha with he | ha
      · exact hb he.symm
      · exact top b.id (by simp) ha

/-- What is below a node outside the exchanged tree is what was there, with the exchange made. -/
theorem forest_eq (h : s.Exchanged s' a cs p before after us)
    (stands : s.Stands a cs p before after) (linked' : s'.WellLinked) (held : root ∈ s)
    (out : s.Outside a.id root) :
    s'.forest root = exchange (single a.id us) (s.forest root) := by
  have linked := stands.linked
  have hroot : s.Shows [.node ⟨root, s.element root⟩ (s.forest root)] :=
    .cons rfl linked.children_eq_forest linked.shows_forest .nil
  have hshown := h.shows_exchange stands hroot (by simpa using held) (by simpa using out.2)
  rw [exchange_cons_of_none (single_of_ne out.1), exchange_nil] at hshown
  obtain ⟨_, hchildren, hbelow⟩ := hshown.of_mem List.mem_cons_self
  exact hbelow.forest_eq linked' hchildren

theorem element_eq (h : s.Exchanged s' a cs p before after us)
    (stands : s.Stands a cs p before after) (held : root ∈ s) (out : s.Outside a.id root) :
    s'.element root = s.element root :=
  h.frame.element root held (stands.not_mem_of_outside out)

theorem stands_apart (h : s.Exchanged s' a cs p before after us)
    (stands : s.Stands a cs p before after) (linked' : s'.WellLinked)
    (hq : (s.links n).parent = some m) (apart : s.Apart a.id n) :
    (s'.links n).parent = some m ∧ s'.cells n = s.cells n := by
  have linked := stands.linked
  have hn : n ∈ s := mem_of_parent hq
  have hm : m ∈ s := linked.parent_mem hq
  have out : s.Outside a.id m := by
    refine ⟨fun he => apart.2.1 (he ▸ .single hq), fun ha => apart.2.1 (ha.tail hq)⟩
  constructor
  · have hroots : n ∈ roots (s'.forest m) := by
      rw [h.forest_eq stands linked' hm out, roots_exchange, List.mem_flatMap]
      refine ⟨n, linked.children_eq_forest ▸ linked.mem_children.mpr hq, ?_⟩
      rw [single_of_ne apart.1.symm]
      exact List.mem_singleton_self n
    exact linked'.mem_children.mp (linked'.children_eq_forest ▸ hroots)
  · have hforest : s'.forest n = s.forest n := by
      rw [h.forest_eq stands linked' hn ⟨apart.1.symm, apart.2.1⟩]
      refine exchange_eq_self fun k hk => single_of_ne ?_
      rintro rfl
      exact apart.2.2 (linked.mem_forest_iff.mp hk)
    have helement := h.element_eq stands hn ⟨apart.1.symm, apart.2.1⟩
    rw [linked'.shows_forest.cells_eq linked' linked'.children_eq_forest,
      linked.shows_forest.cells_eq linked linked.children_eq_forest, hforest, helement]

theorem above_apart (h : s.Exchanged s' a cs p before after us)
    (stands : s.Stands a cs p before after) (linked' : s'.WellLinked)
    (hq : (s.links n).parent = some m) (apart : s.Apart a.id n) (k : NodeId) :
    s'.Above n k ↔ s.Above n k := by
  have hforest : s'.forest n = s.forest n :=
    congrArg Outline.children (h.stands_apart stands linked' hq apart).2
  rw [← linked'.mem_forest_iff, ← stands.linked.mem_forest_iff, hforest]

theorem not_mem_of_apart (h : s.Exchanged s' a cs p before after us)
    (stands : s.Stands a cs p before after) (held : n ∈ s) (apart : s.Apart a.id n) :
    n ∉ ids us := by
  intro hn
  rcases h.origin n hn with hin | hnew
  · exact stands.not_mem_of_outside ⟨apart.1.symm, apart.2.1⟩ hin
  · exact hnew held

end Exchanged

end Store

end SnippetTree
