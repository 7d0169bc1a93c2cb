import SnippetTree.Proofs.Carried
import SnippetTree.Proofs.Moving

namespace SnippetTree

open Script

namespace Store

variable {s s' s'' : Store} {n m p c tree last : NodeId} {previous next : Option NodeId}

theorem parent_place (hp : p ∈ s) (hc : c ∈ s) :
    ((s.place p c previous next).links m).parent = if m = c then some p else (s.links m).parent := by
  simp only [place, hp, hc, and_self, ↓reduceIte, parent_join, links_modifyLinks, and_true]
  split <;> rfl

theorem parent_append_eq (hp : p ∈ s) (hc : c ∈ s) :
    ((s.append p c).links m).parent = if m = c then some p else (s.links m).parent := by
  rw [append, parent_place (mem_detach.mpr hp) (mem_detach.mpr hc), parent_detach]
  split <;> rfl

theorem parent_insertBefore {r : NodeId} (hp : p ∈ s) (hc : c ∈ s) (hcr : c ≠ r) :
    ((s.insertBefore p c r).links m).parent = if m = c then some p else (s.links m).parent := by
  rw [insertBefore, if_neg hcr, parent_place (mem_detach.mpr hp) (mem_detach.mpr hc), parent_detach]
  split <;> rfl

theorem WellLinked.parent_firstChild (h : s.WellLinked) (hc : (s.links n).firstChild = some c) :
    (s.links c).parent = some n := by
  rw [h.firstChild] at hc
  exact h.mem_children.mp (List.mem_of_head? hc)

/-- No node has another parent, but for those that came from `n` to `p`. -/
def Hands (s s' : Store) (n p : NodeId) : Prop :=
  ∀ m, (s'.links m).parent = (s.links m).parent ∨
    ((s.links m).parent = some n ∧ (s'.links m).parent = some p)

theorem Hands.refl (s : Store) (n p : NodeId) : s.Hands s n p := fun _ => Or.inl rfl

theorem Hands.congr (h : s.Hands s' n p) (links : ∀ m, s''.links m = s'.links m) : s.Hands s'' n p :=
  fun m => by rw [links]; exact h m

theorem Hands.parent (h : s.Hands s' n p) (hc : (s'.links c).parent = some n) :
    (s.links c).parent = some n := by
  rcases h c with same | ⟨start, _⟩
  · rw [← same, hc]
  · exact start

theorem Hands.step (h : s.Hands s' n p) (hc : (s'.links c).parent = some n)
    (parent : ∀ m, (s''.links m).parent = if m = c then some p else (s'.links m).parent) :
    s.Hands s'' n p := by
  intro m
  rw [parent]
  split
  next he => exact Or.inr ⟨he ▸ h.parent hc, rfl⟩
  next => exact h m

/-- Nodes from below `n` were handed to `p`, and only they got other data; their records are new. -/
structure Splices (s s' : Store) (n p : NodeId) : Prop where
  hands : s.Hands s' n p
  held : ∀ m ∈ s, m ∈ s'
  data : ∀ m, (s.links m).parent ≠ some n → s'.data m = s.data m
  retains : s.Retains s'
  severs : s.Severs s'

namespace Splices

theorem refl (s : Store) (n p : NodeId) : s.Splices s n p :=
  ⟨.refl s n p, fun _ hm => hm, fun _ _ => rfl, .refl s, .refl s⟩

theorem dresses (h : s.Splices s' n p) (grounded : s'.Grounded)
    (hc : (s'.links c).parent = some n) (dressed : s'.Dresses s'' c) : s.Splices s'' n p where
  hands := h.hands.congr dressed.links
  held := fun m hm => dressed.held m (h.held m hm)
  data := by
    intro m hm
    have hne : m ≠ c := fun he => hm (he ▸ h.hands.parent hc)
    exact (dressed.data m hne).trans (h.data m hm)
  retains := h.retains.trans dressed.retains
  severs := h.severs.trans (dressed.severs grounded)

theorem relinked (h : s.Splices s' n p) (relinked : s'.Relinked s'') (hands : s.Hands s'' n p) :
    s.Splices s'' n p where
  hands := hands
  held := fun m hm => relinked.mem_iff.mpr (h.held m hm)
  data := fun m hm => (relinked.data m).trans (h.data m hm)
  retains := h.retains.trans (.of_altersNodes relinked.alters)
  severs := h.severs.trans (.of_data relinked.data)

end Splices

/-- What the end of a replacement changes: nodes from below `n` were handed to `last`, and nodes from
below `tree`, of which these may be some, to `p`. Only nodes from below `tree` got other data. -/
structure Supplants (s s' : Store) (n last tree p : NodeId) : Prop where
  held : ∀ m ∈ s, m ∈ s'
  retains : s.Retains s'
  severs : s.Severs s'
  detached : (s'.links n).parent = none
  data : ∀ m, (s.links m).parent ≠ some tree →
    ((s.links m).parent = some n → last ≠ tree) → s'.data m = s.data m
  parent : ∀ m, m ≠ n → (s'.links m).parent = (s.links m).parent ∨
    (((s.links m).parent = some n ∨ (s.links m).parent = some tree) ∧
      ((s'.links m).parent = some last ∨ (s'.links m).parent = some p))

end Store

namespace Script

open Store

variable {σ : Type} {s : Store} {n p tree last : NodeId} {w w' : World σ}

theorem leads_drain_append (held : last ∈ s) :
    Leads (fun s' => s'.Sound ∧ s.Relinked s' ∧ s.Hands s' n last)
      (drain n fun child => perform (.append last child) : Script σ Empty Unit) fun _ s' =>
        s'.Sound ∧ s.Relinked s' ∧ s.Hands s' n last := by
  refine leads_drain fun c => leads_perform fun s' h ok => ?_
  obtain ⟨⟨sound, relinked, hands⟩, first⟩ := h
  have hc := sound.linked.parent_firstChild first
  refine ⟨Edit.sound_apply sound ok, relinked.trans (.append s' last c), hands.step hc fun m => ?_⟩
  exact parent_append_eq (relinked.mem_iff.mpr held) (mem_of_parent hc)

theorem leads_drain_merge :
    Leads (fun s' => s'.Sound ∧ s.Splices s' tree p)
      (drain tree fun top => do
        merge n top
        perform (.insertBefore p top (some n)) : Script σ Empty Unit) fun _ s' =>
        s'.Sound ∧ s.Splices s' tree p := by
  refine leads_drain fun c => ?_
  have merged : Leads (fun s' => (s'.Sound ∧ s.Splices s' tree p) ∧ (s'.links tree).firstChild = some c)
      (merge n c : Script σ Empty Unit) fun _ s' =>
        s'.Sound ∧ s.Splices s' tree p ∧ (s'.links c).parent = some tree := by
    rintro w a w' ⟨⟨sound, splices⟩, first⟩ hrun
    have hc := sound.linked.parent_firstChild first
    have dressed := leads_merge (s := w.store) n c w a w' (.refl _ _) hrun
    exact ⟨sound_of_run sound hrun, splices.dresses sound.grounded hc dressed,
      by rw [dressed.links, hc]⟩
  refine merged.bind fun _ => leads_perform fun s' h ok => ?_
  obtain ⟨sound, splices, hc⟩ := h
  refine ⟨Edit.sound_apply sound ok, splices.relinked (.insertBefore s' p c n) ?_⟩
  have placed : s'.misplaced? p c n = none := by simpa [Edit.refusal?] using ok
  by_cases he : c = n
  · simp only [Edit.apply, insertBefore, if_pos he]
    exact splices.hands
  · exact splices.hands.step hc fun m => parent_insertBefore
      (sound.linked.parent_mem (misplaced?_eq_none placed).1) (mem_of_parent hc) he

theorem splices_of_run (sound : w.store.Sound) (hp : (w.store.links n).parent = some p)
    (hrun : (Resolution.splice tree n).run w = (.done (), w')) :
    ∃ s, w.store.Splices s tree p ∧ w'.store = s.detach n := by
  have hread : (read fun s => (s.links n).parent : Script σ Empty _).run w = (.done (some p), w) := by
    rw [run_read, hp]
  have hrest := (run_bind_of_done hread).symm.trans hrun
  obtain ⟨_, w₁, hdrain, hdetach⟩ := exists_run_of_bind hrest
  refine ⟨w₁.store, (leads_drain_merge w () w₁ ⟨sound, .refl _ _ _⟩ hdrain).2, ?_⟩
  cases hdetach
  rfl

theorem supplants_of_run (sound : w.store.Sound) (held : last ∈ w.store)
    (hp : (w.store.links n).parent = some p) (hpn : p ≠ n)
    (hrun : (drain n (fun child => perform (.append last child)) >>= fun _ =>
      Resolution.splice tree n).run w = (.done (), w')) :
    w.store.Supplants w'.store n last tree p := by
  obtain ⟨_, w₁, hdrain, hsplice⟩ := exists_run_of_bind hrun
  obtain ⟨sound₁, relinked, hands⟩ :=
    leads_drain_append held w () w₁ ⟨sound, .refl _, .refl _ _ _⟩ hdrain
  have hp₁ : (w₁.store.links n).parent = some p := by
    rcases hands n with same | ⟨start, _⟩
    · rw [same, hp]
    · exact absurd (Option.some.inj (hp.symm.trans start)) hpn
  obtain ⟨s, splices, hw'⟩ := splices_of_run sound₁ hp₁ hsplice
  have hdetach := Store.Relinked.detach s n
  rw [← hw'] at hdetach
  have hparent : ∀ m, m ≠ n → (w'.store.links m).parent = (s.links m).parent := fun m hm => by
    rw [hw', parent_detach, if_neg hm]
  refine ⟨fun m hm => ?_, ?_, ?_, by rw [hw', parent_detach, if_pos rfl], fun m htree hn => ?_,
    fun m hm => ?_⟩
  · exact hdetach.mem_iff.mpr (splices.held m (relinked.mem_iff.mpr hm))
  · exact ((Retains.of_altersNodes relinked.alters).trans splices.retains).trans
      (.of_altersNodes hdetach.alters)
  · exact ((Severs.of_data relinked.data).trans splices.severs).trans (.of_data hdetach.data)
  · rw [hdetach.data, splices.data m, relinked.data]
    rcases hands m with same | ⟨start, now⟩
    · rwa [same]
    · rw [now]
      exact fun he => hn start (Option.some.inj he)
  · rw [hparent m hm]
    rcases hands m with same | ⟨start, now⟩ <;> rcases splices.hands m with same' | ⟨start', now'⟩
    · exact Or.inl (same'.trans same)
    · exact Or.inr ⟨Or.inr (same ▸ start'), Or.inr now'⟩
    · exact Or.inr ⟨Or.inl start, Or.inl (same'.trans now)⟩
    · exact Or.inr ⟨Or.inl start, Or.inr now'⟩

end Script

end SnippetTree
