import SnippetTree.Proofs.Merging
import SnippetTree.Proofs.Shown
import SnippetTree.Resolution

namespace SnippetTree

namespace Cell

def give (e : Element) (a : Cell) : Cell := { a with element := a.element.merge e }

def giveAll (e : Element) (ts : List (Outline Cell)) : List (Outline Cell) :=
  ts.map (Outline.relabel (give e))

@[simp] theorem giveAll_cons (e : Element) (a : Cell) (cs ts : List (Outline Cell)) :
    giveAll e (.node a cs :: ts) = .node (a.give e) cs :: giveAll e ts := rfl

@[simp] theorem ids_giveAll (e : Element) (ts : List (Outline Cell)) :
    ids (giveAll e ts) = ids ts := by
  induction ts with
  | nil => rfl
  | cons t ts ih =>
    obtain ⟨a, cs⟩ := t
    rw [giveAll_cons, ids_cons, ih, ids_cons]
    rfl

@[simp] theorem roots_giveAll (e : Element) (ts : List (Outline Cell)) :
    roots (giveAll e ts) = roots ts := by
  induction ts with
  | nil => rfl
  | cons t ts ih =>
    obtain ⟨a, cs⟩ := t
    rw [giveAll_cons, roots_cons, ih, roots_cons]
    rfl

theorem eq_nil_of_ids {ts : List (Outline Cell)} (h : ids ts = []) : ts = [] := by
  cases ts with
  | nil => rfl
  | cons t ts => cases t; simp at h

theorem roots_graft {ts us : List (Outline Cell)} (hne : ts ≠ []) :
    roots (Outline.graft ts us) = roots ts := by
  fun_induction Outline.graft ts us with
  | case1 us => exact absurd rfl hne
  | case2 a cs us ih => rfl
  | case3 t t' ts us ih =>
    have hrest := ih (List.cons_ne_nil t' ts)
    simp only [roots, List.map_cons] at hrest ⊢
    rw [hrest]

theorem ids_graft (ts us : List (Outline Cell)) :
    ids (Outline.graft ts us) = ids ts ++ ids us := by
  rw [ids, Outline.labels_graft, List.map_append]
  rfl

end Cell

open Cell

namespace Store

variable {s s' s'' : Store} {n m p c r : NodeId} {ts us : List (Outline Cell)}

/-- The second store has the nodes of the first one with the data that they had. -/
structure Relinked (s s' : Store) : Prop where
  alters : s.AltersNodes s'
  data : ∀ n, s'.data n = s.data n

namespace Relinked

theorem refl (s : Store) : s.Relinked s := ⟨.refl s, fun _ => rfl⟩

theorem trans (h : s.Relinked s') (h' : s'.Relinked s'') : s.Relinked s'' :=
  ⟨h.alters.trans h'.alters, fun n => (h'.data n).trans (h.data n)⟩

theorem append (s : Store) (p c : NodeId) : s.Relinked (s.append p c) :=
  ⟨altersNodes_append .., fun _ => data_append⟩

theorem insertBefore (s : Store) (p c r : NodeId) : s.Relinked (s.insertBefore p c r) :=
  ⟨altersNodes_insertBefore .., fun _ => data_insertBefore⟩

theorem detach (s : Store) (c : NodeId) : s.Relinked (s.detach c) :=
  ⟨altersNodes_detach .., fun _ => data_detach⟩

theorem mem_iff (h : s.Relinked s') : m ∈ s' ↔ m ∈ s := h.alters.mem_iff

theorem element (h : s.Relinked s') (n : NodeId) : s'.element n = s.element n := by
  obtain ⟨nodes, _, rfl⟩ := h.alters
  exact congrArg s.shown (h.data n)

theorem guards (h : s.Relinked s') : s.KeepsGuards s' := by
  obtain ⟨nodes, _, rfl⟩ := h.alters
  exact .of_eq rfl

theorem shows (h : s.Relinked s') (shown : s.Shows ts)
    (children : ∀ m ∈ ids ts, s'.children m = s.children m) : s'.Shows ts :=
  shown.congr fun m hm => ⟨h.element m, children m hm⟩

end Relinked

/-- What the second store keeps of the first one: all nodes and guards, what nodes show unless they
are `drawn`, and which children nodes have unless they are `moved`. -/
structure Frame (s s' : Store) (drawn moved : List NodeId) : Prop where
  held : ∀ m ∈ s, m ∈ s'
  guards : s.KeepsGuards s'
  element : ∀ m ∈ s, m ∉ drawn → s'.element m = s.element m
  children : ∀ m ∈ s, m ∉ moved → s'.children m = s.children m

namespace Frame

variable {drawn moved drawn' moved' : List NodeId}

theorem refl (s : Store) : s.Frame s [] [] :=
  ⟨fun _ hm => hm, .refl s, fun _ _ _ => rfl, fun _ _ _ => rfl⟩

theorem trans (h : s.Frame s' drawn moved) (h' : s'.Frame s'' drawn' moved') :
    s.Frame s'' (drawn ++ drawn') (moved ++ moved') where
  held := fun m hm => h'.held m (h.held m hm)
  guards := h.guards.trans h'.guards
  element := by
    intro m hm hout
    rw [List.mem_append, not_or] at hout
    exact (h'.element m (h.held m hm) hout.2).trans (h.element m hm hout.1)
  children := by
    intro m hm hout
    rw [List.mem_append, not_or] at hout
    exact (h'.children m (h.held m hm) hout.2).trans (h.children m hm hout.1)

theorem mono (h : s.Frame s' drawn moved) (hdrawn : ∀ m ∈ s, m ∈ drawn → m ∈ drawn')
    (hmoved : ∀ m ∈ s, m ∈ moved → m ∈ moved') : s.Frame s' drawn' moved' :=
  ⟨h.held, h.guards, fun m hm hout => h.element m hm fun hd => hout (hdrawn m hm hd),
    fun m hm hout => h.children m hm fun hd => hout (hmoved m hm hd)⟩

theorem shows (h : s.Frame s' drawn moved) (shown : s.Shows ts) (held : ∀ m ∈ ids ts, m ∈ s)
    (hdrawn : ∀ m ∈ ids ts, m ∉ drawn) (hmoved : ∀ m ∈ ids ts, m ∉ moved) : s'.Shows ts :=
  shown.congr fun m hm =>
    ⟨h.element m (held m hm) (hdrawn m hm), h.children m (held m hm) (hmoved m hm)⟩

end Frame

theorem Relinked.frame {moved : List NodeId} (h : s.Relinked s')
    (children : ∀ m, m ∉ moved → s'.children m = s.children m) : s.Frame s' [] moved :=
  ⟨fun _ hm => h.mem_iff.mpr hm, h.guards, fun m _ _ => h.element m, fun m _ => children m⟩

theorem Redrawn.frame {e : Element} (h : s.Redrawn s' n e) (linked : s.WellLinked) :
    s.Frame s' [n] [] :=
  ⟨h.held, h.guards, fun m hm hne => h.others m hm (by simpa using hne),
    fun m _ _ => linked.children_congr h.links m⟩

theorem WellLinked.firstChild (h : s.WellLinked) : (s.links n).firstChild = (s.children n).head? :=
  (h.siblings n).first

theorem WellLinked.erase_of_parent (h : s.WellLinked) (hp : (s.links c).parent = some p)
    (hne : p ≠ m) : (s.children m).erase c = s.children m := by
  rw [List.erase_of_not_mem]
  rw [h.mem_children, hp]
  exact fun he => hne (Option.some.inj he)

theorem Shows.parent (linked : s.WellLinked) (hn : s.children n = roots ts) :
    ∀ r ∈ roots ts, (s.links r).parent = some n := fun _ hr => linked.mem_children.mp (hn ▸ hr)

theorem Shows.nodup (h : s.Shows ts) (linked : s.WellLinked) (hn : s.children n = roots ts) :
    (ids ts).Nodup :=
  (h.nodup_ids linked (hn ▸ (linked.siblings n).nodup) (Shows.parent linked hn)).1

theorem Shows.not_mem_ids (h : s.Shows ts) (linked : s.WellLinked) (hn : s.children n = roots ts) :
    n ∉ ids ts :=
  (h.nodup_ids linked (hn ▸ (linked.siblings n).nodup) (Shows.parent linked hn)).2

theorem WellLinked.length_children_le (h : s.WellLinked) :
    (s.children n).length ≤ s.nodes.size :=
  length_le_size (h.siblings n).nodup fun _ hc => mem_of_parent (h.mem_children.mp hc)

theorem Shows.cycle?_eq_none {a : Cell} {cs : List (Outline Cell)} (h : s.Shows (.node a cs :: ts))
    (linked : s.WellLinked) (out : m ∉ ids (.node a cs :: ts)) : s.cycle? m a.id = none := by
  rw [h.mem_ids_iff linked] at out
  refine (cycle?_eq_none_iff linked).mpr ⟨fun he => ?_, fun ha => ?_⟩
  · exact out ⟨a.id, by simp, Or.inl he.symm⟩
  · exact out ⟨a.id, by simp, Or.inr ha⟩

theorem Redrawn.shows {e : Element} {a : Cell} {cs : List (Outline Cell)}
    (h : s.Redrawn s' a.id e) (linked : s.WellLinked)
    (hn : s.children n = roots (.node a cs :: ts)) (shown : s.Shows (.node a cs :: ts)) :
    s'.Shows (.node { a with element := e } cs :: ts) := by
  have hframe := h.frame linked
  have hheld : ∀ m ∈ ids (.node a cs :: ts), m ∈ s := fun m =>
    shown.mem_store linked fun r hr => mem_of_parent (Shows.parent linked hn r hr)
  have hnodup := shown.nodup linked hn
  rw [ids_cons, List.nodup_cons] at hnodup
  cases shown with
  | cons element children below rest =>
    refine .cons h.element ((hframe.children a.id (hheld _ (by simp)) (by simp)).trans children)
      (hframe.shows below (fun m hm => hheld m (by simp [hm])) (fun m hm he => ?_) (by simp))
      (hframe.shows rest (fun m hm => hheld m (by simp [hm])) (fun m hm he => ?_) (by simp))
    · exact hnodup.1 (List.mem_append_left _ (List.mem_singleton.mp he ▸ hm))
    · exact hnodup.1 (List.mem_append_right _ (List.mem_singleton.mp he ▸ hm))

theorem Shows.children_getLast {last : NodeId} (h : s.Shows ts)
    (hl : (ids ts).getLast? = some last) : s.children last = [] := by
  induction h with
  | nil => simp at hl
  | @cons a cs ts element children below rest ihc iht =>
    rw [ids_cons, ← List.cons_append, List.getLast?_append] at hl
    cases hts : (ids ts).getLast? with
    | some m =>
      rw [hts] at hl
      exact iht (hts.trans hl)
    | none =>
      rw [hts, Option.none_or] at hl
      cases hcs : (ids cs).getLast? with
      | some m =>
        rw [List.getLast?_cons_of_ne_nil (List.ne_nil_of_mem (List.mem_of_getLast? hcs))] at hl
        exact ihc hl
      | none =>
        have hempty : cs = [] := eq_nil_of_ids (List.getLast?_eq_none_iff.mp hcs)
        subst hempty
        have he : a.id = last := Option.some.inj hl
        rw [← he, children]
        rfl

theorem Shows.children_last {last : NodeId} (h : s.Shows ts) (hn : s.children n = roots ts)
    (hl : (n :: ids ts).getLast? = some last) : s.children last = [] := by
  cases hts : (ids ts).getLast? with
  | some m =>
    rw [List.getLast?_cons_of_ne_nil (List.ne_nil_of_mem (List.mem_of_getLast? hts))] at hl
    exact h.children_getLast hl
  | none =>
    have hempty : ts = [] := eq_nil_of_ids (List.getLast?_eq_none_iff.mp hts)
    subst hempty
    have he : n = last := Option.some.inj hl
    rw [← he, hn]
    rfl

theorem children_graft {last : NodeId} (hq : s.children n = roots ts)
    (nodup : (n :: ids ts).Nodup) (hl : (n :: ids ts).getLast? = some last)
    (same : n ≠ last → s'.children n = s.children n) (children : s'.children last = roots us) :
    s'.children n = roots (Outline.graft ts us) := by
  cases ts with
  | nil =>
    have he : n = last := Option.some.inj hl
    rw [he, children, Outline.graft]
  | cons t ts =>
    have hmem : last ∈ ids (t :: ts) := by
      cases t
      rw [ids_cons, List.getLast?_cons_cons] at hl
      rw [ids_cons]
      exact List.mem_of_getLast? hl
    have hne : n ≠ last := fun he => (List.nodup_cons.mp nodup).1 (he ▸ hmem)
    rw [same hne, hq, roots_graft (List.cons_ne_nil t ts)]

theorem Shows.graft {last : NodeId} (h : s.Shows ts) (hus : s'.Shows us)
    (nodup : (ids ts).Nodup) (hl : ∀ m ∈ (ids ts).getLast?, m = last)
    (element : ∀ m ∈ ids ts, s'.element m = s.element m)
    (same : ∀ m ∈ ids ts, m ≠ last → s'.children m = s.children m)
    (children : s'.children last = roots us) : s'.Shows (Outline.graft ts us) := by
  fun_induction Outline.graft ts us with
  | case1 us => exact hus
  | case2 a cs us ih =>
    rw [ids_cons, ids_nil, List.append_nil] at nodup hl element same
    cases h with
    | cons elementa childrena below _ =>
      have hlast : (a.id :: ids cs).getLast? = some last := by
        cases he : (a.id :: ids cs).getLast? with
        | none => simp at he
        | some m => rw [hl m he]
      refine .cons ((element a.id (by simp)).trans elementa)
        (children_graft childrena nodup hlast (same a.id (by simp)) children)
        (ih below hus (List.nodup_cons.mp nodup).2 (fun m hm => hl m ?_)
          (fun m hm => element m (by simp [hm])) (fun m hm => same m (by simp [hm])) children) .nil
      rw [List.getLast?_cons_of_ne_nil (List.ne_nil_of_mem (List.mem_of_getLast? hm))]
      exact hm
  | case3 t t' ts us ih =>
    obtain ⟨a, cs⟩ := t
    rw [ids_cons, ← List.cons_append] at nodup hl element same
    have hrest : ids (t' :: ts) ≠ [] := by
      cases t'
      simp
    have hlast : ∀ m ∈ (ids (t' :: ts)).getLast?, m = last := fun m hm =>
      hl m (by rw [List.getLast?_append_of_ne_nil _ hrest]; exact hm)
    have hout : ∀ m ∈ a.id :: ids cs, m ≠ last := by
      rintro m hm rfl
      have hk := hlast _ (List.getLast?_eq_some_getLast hrest)
      exact (List.nodup_append.mp nodup).2.2 m hm _ (List.getLast_mem hrest) hk.symm
    cases h with
    | cons elementa childrena below rest =>
      have hin : ∀ m ∈ a.id :: ids cs, m ∈ a.id :: ids cs ++ ids (t' :: ts) := fun m hm =>
        List.mem_append_left _ hm
      refine .cons ((element a.id (hin _ (by simp))).trans elementa)
        ((same a.id (hin _ (by simp)) (hout _ (by simp))).trans childrena)
        (below.congr fun m hm => ⟨element m (hin m (by simp [hm])),
          same m (hin m (by simp [hm])) (hout m (by simp [hm]))⟩)
        (ih rest hus (List.nodup_append.mp nodup).2.1 hlast
          (fun m hm => element m (List.mem_append_right _ hm))
          (fun m hm => same m (List.mem_append_right _ hm)) children)

end Store

namespace Script

variable {σ : Type} {w : World σ} {n m last : NodeId} {us : List (Outline Cell)}

theorem run_drainWithin_of_nil {move : NodeId → Script σ Empty Unit} {bound : Nat}
    (linked : w.store.WellLinked) (none : w.store.children n = []) :
    (drainWithin n move (bound + 1)).run w = (.done (), w) := by
  have hf := linked.firstChild (n := n)
  rw [none] at hf
  have hread : ((read fun s => (s.links n).firstChild : Script σ Empty _)).run w =
      (.done Option.none, w) := by rw [run_read, hf]; rfl
  exact run_bind_of_done hread

theorem run_drainWithin_of_cons {move : NodeId → Script σ Empty Unit} {bound : Nat} {c : NodeId}
    {cs : List NodeId} {w' : World σ} (linked : w.store.WellLinked)
    (some : w.store.children n = c :: cs) (moved : (move c).run w = (.done (), w')) :
    (drainWithin n move (bound + 1)).run w = (drainWithin n move bound).run w' := by
  have hf := linked.firstChild (n := n)
  rw [some] at hf
  have hread : ((read fun s => (s.links n).firstChild : Script σ Empty _)).run w =
      (.done (Option.some c), w) := by rw [run_read, hf]; rfl
  exact (run_bind_of_done hread).trans (run_bind_of_done moved)

theorem run_drainWithin_append {bound : Nat} (sound : w.store.Sound) (shown : w.store.Shows us)
    (hn : w.store.children n = roots us) (held : last ∈ w.store) (hne : n ≠ last)
    (out : last ∉ ids us) (room : us.length < bound) :
    ∃ s', (drainWithin n (fun c => perform (.append last c)) bound).run w =
        (.done (), { w with store := s' }) ∧
      w.store.Relinked s' ∧ s'.children n = [] ∧
      s'.children last = w.store.children last ++ roots us ∧
      ∀ m, m ≠ n → m ≠ last → s'.children m = w.store.children m := by
  induction us generalizing w bound with
  | nil =>
    obtain ⟨bound, rfl⟩ := Nat.exists_eq_succ_of_ne_zero (by omega : bound ≠ 0)
    exact ⟨w.store, run_drainWithin_of_nil sound.linked hn, .refl _, hn, by simp,
      fun _ _ _ => rfl⟩
  | cons u us ih =>
    obtain ⟨a, cs⟩ := u
    obtain ⟨bound, rfl⟩ := Nat.exists_eq_succ_of_ne_zero (by omega : bound ≠ 0)
    have ok := shown.cycle?_eq_none sound.linked out
    have hparent : (w.store.links a.id).parent = some n :=
      sound.linked.mem_children.mp (by simp [hn])
    have refused : (Edit.append last a.id).refusal? w.store = none := by simp [Edit.refusal?, ok]
    have hchildren : ∀ q, (w.store.append last a.id).children q = if q = last then
        (w.store.children q).erase a.id ++ [a.id] else (w.store.children q).erase a.id := fun q =>
      sound.linked.children_append held (Store.mem_of_parent hparent)
    have hother : ∀ q, q ≠ n → (w.store.children q).erase a.id = w.store.children q := fun q hq =>
      sound.linked.erase_of_parent hparent (Ne.symm hq)
    have hrelinked := Store.Relinked.append w.store last a.id
    have hsame : ∀ q, q ≠ n → q ≠ last →
        (w.store.append last a.id).children q = w.store.children q := fun q hq hl => by
      rw [hchildren, if_neg hl, hother q hq]
    have hbelow : (w.store.append last a.id).children n = roots us := by
      rw [hchildren, if_neg hne, hn, roots_cons, List.erase_cons_head]
    have htop := shown.not_mem_ids sound.linked hn
    rw [ids_cons, List.mem_cons, List.mem_append, not_or, not_or] at htop out
    have hrest : (w.store.append last a.id).Shows us := by
      cases shown with
      | cons element children below rest =>
        refine hrelinked.shows rest fun q hq => hsame q ?_ ?_
        · rintro rfl
          exact htop.2.2 hq
        · rintro rfl
          exact out.2.2 hq
    let w' : World σ := { w with store := w.store.append last a.id }
    obtain ⟨s', hrun, hrel, hn', hlast, hothers⟩ := ih (w := w') (Edit.sound_apply sound refused)
      hrest hbelow (hrelinked.mem_iff.mpr held) out.2.2 (by simpa using room)
    refine ⟨s', ?_, hrelinked.trans hrel, hn', ?_, fun q hq hl => ?_⟩
    · exact (run_drainWithin_of_cons sound.linked hn (run_perform_of_none refused)).trans hrun
    · rw [hlast, hchildren, if_pos rfl, hother last (Ne.symm hne), roots_cons, List.append_assoc,
        List.singleton_append]
    · exact (hothers q hq hl).trans (hsame q hq hl)

theorem run_splice_one {before after : List NodeId} {p tree : NodeId} {a : Cell}
    {cs : List (Outline Cell)} (sound : w.store.Sound) (shown : w.store.Shows (.node a cs :: us))
    (htree : w.store.children tree = roots (.node a cs :: us))
    (hp : w.store.children p = before ++ n :: after) (hne : p ≠ tree)
    (hpout : p ∉ ids (.node a cs :: us)) (hnout : n ∉ ids (.node a cs :: us)) :
    ∃ s', (merge n a.id >>= fun _ => perform (.insertBefore p a.id (some n))).run w =
        (.done (), { w with store := s' }) ∧ s'.Sound ∧
      w.store.Frame s' [a.id] [tree, p] ∧ s'.children tree = roots us ∧
      s'.children p = before ++ a.id :: n :: after ∧
      s'.Shows (.node (a.give (w.store.element n)) cs :: us) := by
  have hparent : (w.store.links a.id).parent = some tree :=
    sound.linked.mem_children.mp (by simp [htree])
  have hnparent : (w.store.links n).parent = some p :=
    sound.linked.mem_children.mp (by simp [hp])
  have hna : n ≠ a.id := fun he => hnout (by simp [he])
  obtain ⟨s₁, hmerge, drawn⟩ := Store.draws_merge sound (Store.mem_of_parent hnparent)
    (Store.mem_of_parent hparent) hna
  have sound₁ : s₁.Sound := sound_of_run sound hmerge
  have shown₁ := drawn.shows sound.linked htree shown
  rw [(shown.of_mem List.mem_cons_self).1] at shown₁
  have hnparent₁ : (s₁.links n).parent = some p := by rw [drawn.links, hnparent]
  have hparent₁ : (s₁.links a.id).parent = some tree := by rw [drawn.links, hparent]
  have hchildren₁ := sound.linked.children_congr drawn.links
  have ok : s₁.cycle? p a.id = none := shown₁.cycle?_eq_none sound₁.linked hpout
  have refused : (Edit.insertBefore p a.id (some n)).refusal? s₁ = none := by
    simp only [Edit.refusal?, Store.misplaced?, hnparent₁, ne_eq, not_true_eq_false, ↓reduceIte,
      Ne.symm hna, ok, Option.map_none]
  have herase : ∀ q, q ≠ tree → (s₁.children q).erase a.id = w.store.children q := fun q hq => by
    rw [sound₁.linked.erase_of_parent hparent₁ (Ne.symm hq), hchildren₁]
  have hchildren : ∀ q, (s₁.insertBefore p a.id n).children q =
      if q = p then before ++ a.id :: n :: after else (s₁.children q).erase a.id := fun q =>
    sound₁.linked.children_insertBefore (Store.mem_of_parent hparent₁) (Ne.symm hna)
      ((herase p hne).trans hp)
  have htree' : (s₁.insertBefore p a.id n).children tree = roots us := by
    rw [hchildren, if_neg (Ne.symm hne), hchildren₁, htree, roots_cons, List.erase_cons_head]
  have hrelinked := Store.Relinked.insertBefore s₁ p a.id n
  have hsame : ∀ q, q ∉ [tree, p] → (s₁.insertBefore p a.id n).children q = s₁.children q := by
    intro q hq
    simp only [List.mem_cons, List.not_mem_nil, or_false, not_or] at hq
    rw [hchildren, if_neg hq.2, herase q hq.1, hchildren₁]
  refine ⟨s₁.insertBefore p a.id n,
    (run_bind_of_done hmerge).trans (run_perform_of_none refused),
    Edit.sound_apply sound₁ refused, ?_, htree', by rw [hchildren, if_pos rfl], ?_⟩
  · exact (drawn.frame sound.linked).trans (hrelinked.frame hsame)
  · refine hrelinked.shows shown₁ fun q hq => hsame q fun hm => ?_
    simp only [List.mem_cons, List.not_mem_nil, or_false] at hm
    rcases hm with rfl | rfl
    · exact shown.not_mem_ids sound.linked htree hq
    · exact hpout hq

theorem run_drainWithin_splice {bound : Nat} {before after : List NodeId} {p tree : NodeId}
    (sound : w.store.Sound) (shown : w.store.Shows us)
    (htree : w.store.children tree = roots us)
    (hp : w.store.children p = before ++ n :: after) (hne : p ≠ tree) (hpout : p ∉ ids us)
    (hnout : n ∉ ids us) (room : us.length < bound) :
    ∃ s', (drainWithin tree (fun top => do
          merge n top
          perform (.insertBefore p top (some n))) bound).run w =
        (.done (), { w with store := s' }) ∧
      w.store.Frame s' (roots us) [tree, p] ∧ s'.children tree = [] ∧
      s'.children p = before ++ (roots us ++ n :: after) ∧
      s'.Shows (giveAll (w.store.element n) us) := by
  induction us generalizing w bound before with
  | nil =>
    obtain ⟨bound, rfl⟩ := Nat.exists_eq_succ_of_ne_zero (by omega : bound ≠ 0)
    refine ⟨w.store, run_drainWithin_of_nil sound.linked htree, ?_, htree, by simpa using hp, .nil⟩
    exact (Store.Frame.refl _).mono (by simp) (by simp)
  | cons u us ih =>
    obtain ⟨a, cs⟩ := u
    obtain ⟨bound, rfl⟩ := Nat.exists_eq_succ_of_ne_zero (by omega : bound ≠ 0)
    obtain ⟨s₁, hone, sound₁, frame₁, htree₁, hp₁, shown₁⟩ :=
      run_splice_one sound shown htree hp hne hpout hnout
    have hnodup := shown.nodup sound.linked htree
    have htout := shown.not_mem_ids sound.linked htree
    rw [ids_cons, ← List.cons_append] at hnodup hpout hnout htout
    have hpn : (w.store.links n).parent = some p := sound.linked.mem_children.mp (by simp [hp])
    have hn : s₁.element n = w.store.element n := frame₁.element n (Store.mem_of_parent hpn) (by
      rintro hm
      exact hnout (by simp [List.mem_singleton.mp hm]))
    cases shown₁ with
    | cons element children below rest =>
      let w₁ : World σ := { w with store := s₁ }
      have hp₁' : w₁.store.children p = (before ++ [a.id]) ++ n :: after := by simpa using hp₁
      obtain ⟨s', hrun, frame, htree', hp', shown'⟩ := ih (w := w₁) sound₁ rest htree₁ hp₁'
        (fun hm => hpout (List.mem_append_right _ hm))
        (fun hm => hnout (List.mem_append_right _ hm)) (by simpa using room)
      have hn' : w₁.store.element n = w.store.element n := hn
      rw [hn'] at shown'
      have hheld : ∀ m ∈ a.id :: ids cs, m ∈ w.store := fun m hm =>
        shown.mem_store sound.linked (fun r hr => Store.mem_of_parent
          (Store.Shows.parent sound.linked htree r hr)) (by
            rw [ids_cons, ← List.cons_append]
            exact List.mem_append_left _ hm)
      have hfirst : s₁.Shows [.node (a.give (w.store.element n)) cs] :=
        .cons element children below .nil
      have hids : ids [.node (a.give (w.store.element n)) cs] = a.id :: ids cs := by
        simp [give]
      have hfirst' : s'.Shows [.node (a.give (w.store.element n)) cs] := by
        refine frame.shows hfirst ?_ ?_ ?_ <;> rw [hids]
        · exact fun m hm => frame₁.held m (hheld m hm)
        · exact fun m hm hr =>
            (List.nodup_append.mp hnodup).2.2 m hm m (roots_subset_ids us hr) rfl
        · intro m hm hr
          simp only [List.mem_cons, List.not_mem_nil, or_false] at hr
          rcases hr with rfl | rfl
          · exact htout (List.mem_append_left _ hm)
          · exact hpout (List.mem_append_left _ hm)
      refine ⟨s', (run_drainWithin_of_cons sound.linked htree hone).trans hrun,
        (frame₁.trans frame).mono (by simp) (fun m _ hm => ?_), htree', by simpa using hp',
        hfirst'.append shown'⟩
      rcases List.mem_append.mp hm with hm | hm <;> exact hm

theorem run_splice {before after : List NodeId} {p tree : NodeId}
    (sound : w.store.Sound) (shown : w.store.Shows us)
    (htree : w.store.children tree = roots us)
    (hp : w.store.children p = before ++ n :: after) (hne : p ≠ tree) (hpout : p ∉ ids us)
    (hnout : n ∉ ids us) :
    ∃ s', (Resolution.splice tree n).run w = (.done (), { w with store := s' }) ∧
      w.store.Frame s' (roots us) [tree, p] ∧ s'.children tree = [] ∧
      s'.children p = before ++ (roots us ++ after) ∧
      s'.Shows (giveAll (w.store.element n) us) := by
  have hnparent : (w.store.links n).parent = some p :=
    sound.linked.mem_children.mp (by simp [hp])
  have hlength := sound.linked.length_children_le (n := tree)
  rw [htree, roots, List.length_map] at hlength
  obtain ⟨s₁, hrun, frame, htree₁, hp₁, shown₁⟩ := run_drainWithin_splice sound shown htree hp hne
    hpout hnout (Nat.lt_succ_of_le hlength)
  have sound₁ : s₁.Sound := sound_of_run sound hrun
  have hnparent₁ : (s₁.links n).parent = some p := sound₁.linked.mem_children.mp (by simp [hp₁])
  have hnout' : n ∉ before ++ roots us := by
    have hnodup := (sound₁.linked.siblings p).nodup
    rw [hp₁, ← List.append_assoc] at hnodup
    exact fun hm => (List.nodup_append.mp hnodup).2.2 n hm n (by simp) rfl
  have hrelinked := Store.Relinked.detach s₁ n
  have hchildren : ∀ q, q ≠ p → (s₁.detach n).children q = s₁.children q := fun q hq => by
    rw [sound₁.linked.children_detach, sound₁.linked.erase_of_parent hnparent₁ (Ne.symm hq)]
  have frame₁ : s₁.Frame (s₁.detach n) [] [p] :=
    hrelinked.frame fun q hq => hchildren q (by simpa using hq)
  refine ⟨s₁.detach n, ?_, (frame.trans frame₁).mono (by simp) (by simp), ?_, ?_, ?_⟩
  · have hread : (read fun s => (s.links n).parent : Script σ Empty _).run w =
        (.done (some p), w) := by rw [run_read, hnparent]
    exact (run_bind_of_done hread).trans
      ((run_bind_of_done hrun).trans (run_perform_of_none rfl))
  · rw [hchildren tree (Ne.symm hne), htree₁]
  · rw [sound₁.linked.children_detach, hp₁, ← List.append_assoc,
      List.erase_append_right _ hnout', List.erase_cons_head, List.append_assoc]
  · refine hrelinked.shows shown₁ fun q hq => hchildren q ?_
    rintro rfl
    exact hpout (by simpa using hq)

/-- The last part of a replacement: the nodes below `n` go below the last leaf of the template's
tree, and the top nodes of that tree take the place of `n`. -/
theorem run_replace {before after : List NodeId} {p tree : NodeId} {cs : List (Outline Cell)}
    (sound : w.store.Sound) (template : w.store.Shows us)
    (htree : w.store.children tree = roots us) (own : w.store.Shows cs)
    (hn : w.store.children n = roots cs) (hp : w.store.children p = before ++ n :: after)
    (hl : (tree :: ids us).getLast? = some last) (hpout : p ∉ ids cs)
    (apart : ∀ m ∈ tree :: ids us, m ≠ p ∧ m ≠ n ∧ m ∉ ids cs) (held : last ∈ w.store) :
    ∃ s', (drain n (fun child => perform (.append last child)) >>= fun _ =>
          Resolution.splice tree n).run w = (.done (), { w with store := s' }) ∧
      w.store.Frame s' (roots (Outline.graft us cs)) [n, last, tree, p] ∧ s'.children n = [] ∧
      s'.children p = before ++ (roots (Outline.graft us cs) ++ after) ∧
      s'.Shows (giveAll (w.store.element n) (Outline.graft us cs)) := by
  obtain ⟨hlp, hln, hlcs⟩ := apart last (List.mem_of_getLast? hl)
  obtain ⟨htp, htn, htcs⟩ := apart tree (by simp)
  have hpn : p ≠ n := by
    rintro rfl
    exact sound.linked.acyclic p (.single (sound.linked.mem_children.mp (by simp [hp])))
  have hnout := own.not_mem_ids sound.linked hn
  have htout := template.not_mem_ids sound.linked htree
  have hnodup := template.nodup sound.linked htree
  have hlength := sound.linked.length_children_le (n := n)
  rw [hn, roots, List.length_map] at hlength
  obtain ⟨s₁, hdrain, relinked, hn₁, hlast₁, hothers₁⟩ := run_drainWithin_append sound own hn held
    (Ne.symm hln) hlcs (Nat.lt_succ_of_le hlength)
  have sound₁ : s₁.Sound := sound_of_run sound hdrain
  have hleaf : w.store.children last = [] := template.children_last htree hl
  rw [hleaf, List.nil_append] at hlast₁
  have hcs₁ : s₁.Shows cs := relinked.shows own fun m hm => hothers₁ m
    (fun he => hnout (he ▸ hm)) fun he => hlcs (he ▸ hm)
  have htree₁ : s₁.children tree = roots (Outline.graft us cs) :=
    Store.children_graft htree (List.nodup_cons.mpr ⟨htout, hnodup⟩) hl (hothers₁ tree htn) hlast₁
  have hgraft₁ : s₁.Shows (Outline.graft us cs) := by
    refine template.graft hcs₁ hnodup (fun m hm => ?_) (fun m _ => relinked.element m)
      (fun m hm => hothers₁ m (apart m (by simp [hm])).2.1) hlast₁
    rw [List.getLast?_cons_of_ne_nil (List.ne_nil_of_mem (List.mem_of_getLast? hm)), hm] at hl
    exact Option.some.inj hl
  have hp₁ : s₁.children p = before ++ n :: after := by
    rw [hothers₁ p hpn (Ne.symm hlp), hp]
  have hout : ∀ m, m ∉ ids us → m ∉ ids cs → m ∉ ids (Outline.graft us cs) := fun m hus hcs => by
    rw [ids_graft, List.mem_append, not_or]
    exact ⟨hus, hcs⟩
  have hpus : p ∉ ids us := fun hm => (apart p (by simp [hm])).1 rfl
  have hnus : n ∉ ids us := fun hm => (apart n (by simp [hm])).2.1 rfl
  obtain ⟨s₂, hsplice, frame, _, hp₂, shown₂⟩ := run_splice (w := { w with store := s₁ }) sound₁
    hgraft₁ htree₁ hp₁ (Ne.symm htp) (hout p hpus hpout) (hout n hnus hnout)
  have frame₁ : w.store.Frame s₁ [] [n, last] := relinked.frame fun m hm => by
    simp only [List.mem_cons, List.not_mem_nil, or_false, not_or] at hm
    exact hothers₁ m hm.1 hm.2
  have hnmem : n ∈ s₁ := Store.mem_of_parent (p := p) (sound₁.linked.mem_children.mp (by simp [hp₁]))
  have hn₂ : n ∉ [tree, p] := by simp [Ne.symm htn, Ne.symm hpn]
  refine ⟨s₂, (run_bind_of_done hdrain).trans hsplice, frame₁.trans frame,
    (frame.children n hnmem hn₂).trans hn₁, hp₂, ?_⟩
  have helement : s₁.element n = w.store.element n := relinked.element n
  rw [← helement]
  exact shown₂

end Script

end SnippetTree
