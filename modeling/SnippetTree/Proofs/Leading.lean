import SnippetTree.Proofs.Merging
import SnippetTree.Script.Walking

namespace SnippetTree.Script

variable {σ α β ι : Type} {P P' : Store → Prop} {Q Q' : α → Store → Prop} {R : β → Store → Prop}

/-- Where the script succeeds from a store with `P`, its result and the store are as `Q` says. -/
def Leads (P : Store → Prop) (p : Script σ Empty α) (Q : α → Store → Prop) : Prop :=
  ∀ (w : World σ) a w', P w.store → p.run w = (.done a, w') → Q a w'.store

theorem leads_pure {a : α} (h : ∀ s, P s → Q a s) : Leads P (pure a : Script σ Empty α) Q := by
  rintro w _ _ start ⟨⟩
  exact h _ start

theorem exists_run_of_bind {p : Script σ Empty α} {f : α → Script σ Empty β} {w w' : World σ} {b : β}
    (h : (p >>= f).run w = (.done b, w')) :
    ∃ a w₁, p.run w = (.done a, w₁) ∧ (f a).run w₁ = (.done b, w') := by
  rw [bind_eq, run_bind] at h
  rcases hp : p.run w with ⟨out, w₁⟩
  rw [hp] at h
  cases out with
  | done a => exact ⟨a, w₁, rfl, h⟩
  | failed fault => cases h
  | exhausted => cases h

theorem Leads.bind {p : Script σ Empty α} {f : α → Script σ Empty β} (h : Leads P p Q)
    (rest : ∀ a, Leads (Q a) (f a) R) : Leads P (p >>= f) R := by
  intro w b w' start hrun
  obtain ⟨a, w₁, hp, hf⟩ := exists_run_of_bind hrun
  exact rest a w₁ b w' (h w a w₁ start hp) hf

theorem Leads.mono {p : Script σ Empty α} (h : Leads P p Q) (before : ∀ s, P' s → P s)
    (after : ∀ a s, Q a s → Q' a s) : Leads P' p Q' :=
  fun w a w' start hrun => after a _ (h w a w' (before _ start) hrun)

theorem leads_of_fact {p : Script σ Empty α} {fact : Prop} (h : fact → Leads P p Q) :
    Leads (fun s => P s ∧ fact) p Q :=
  fun w a w' start hrun => h start.2 w a w' start.1 hrun

theorem leads_read (f : Store → α) : Leads P (read f : Script σ Empty α) fun a s => P s ∧ a = f s := by
  rintro w _ _ start ⟨⟩
  exact ⟨start, rfl⟩

theorem leads_read_bind {f : Store → α} {q : α → Script σ Empty β}
    (rest : ∀ a, Leads P (q a) R) : Leads P (read f >>= q) R :=
  (leads_read f).bind fun a => (rest a).mono (fun _ h => h.1) fun _ _ h => h

theorem leads_exhausted : Leads P (.exhausted : Script σ Empty α) Q := by
  rintro w _ _ _ ⟨⟩

theorem leads_perform {e : Edit} {Q : Unit → Store → Prop}
    (h : ∀ s, P s → e.refusal? s = none → Q () (e.apply s)) :
    Leads P (perform e : Script σ Empty Unit) Q := by
  intro w _ w' start hrun
  rw [run_perform] at hrun
  cases ok : e.refusal? w.store with
  | some fault =>
    rw [ok] at hrun
    cases hrun
  | none =>
    rw [ok] at hrun
    cases hrun
    exact h _ start ok

theorem leads_forM {f : ι → Script σ Empty Unit} {is : List ι}
    (h : ∀ i ∈ is, Leads P (f i) fun _ => P) : Leads P (is.forM f) fun _ => P := by
  induction is with
  | nil => exact leads_pure fun _ start => start
  | cons i is ih =>
    exact (h i List.mem_cons_self).bind fun _ => ih fun j hj => h j (List.mem_cons_of_mem i hj)

theorem leads_mapM {f : ι → Script σ Empty α} {good : α → Prop}
    (h : ∀ i, Leads P (f i) fun a s => P s ∧ good a) (is : List ι) :
    Leads P (is.mapM f) fun as s => P s ∧ ∀ a ∈ as, good a := by
  induction is with
  | nil => exact leads_pure fun _ start => ⟨start, by simp⟩
  | cons i is ih =>
    rw [List.mapM_cons]
    refine (h i).bind fun a => leads_of_fact fun ha => ih.bind fun as => ?_
    refine leads_pure fun s hs => ⟨hs.1, fun b hb => ?_⟩
    rcases List.mem_cons.mp hb with rfl | hb
    · exact ha
    · exact hs.2 b hb

theorem leads_drain {n : NodeId} {move : NodeId → Script σ Empty Unit}
    (h : ∀ c, Leads (fun s => P s ∧ (s.links n).firstChild = some c) (move c) fun _ => P) :
    Leads P (drain n move) fun _ => P := by
  refine leads_read_bind fun bound => ?_
  induction bound with
  | zero => exact leads_exhausted
  | succ bound ih =>
    refine (leads_read _).bind fun first => ?_
    cases first with
    | none => exact leads_pure fun _ start => start.1
    | some c => exact ((h c).mono (fun _ start => ⟨start.1, start.2.symm⟩) fun _ _ hs => hs).bind fun _ => ih

theorem Leads.sound {p : Script σ Empty α} (h : Leads (fun s => s.Sound ∧ P s) p Q) :
    Leads (fun s => s.Sound ∧ P s) p fun a s => s.Sound ∧ Q a s :=
  fun w a w' start hrun => ⟨sound_of_run start.1 hrun, h w a w' start hrun⟩

end SnippetTree.Script
