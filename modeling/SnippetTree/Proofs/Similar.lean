import SnippetTree.Proofs.Survivors

namespace SnippetTree

namespace Outline

variable {α β γ δ : Type} {R : α → β → Prop} {ts ts' : List (Outline α)} {us us' : List (Outline β)}

/-- The forests have one shape, and their labels are related place by place. -/
inductive Similar (R : α → β → Prop) : List (Outline α) → List (Outline β) → Prop
  | nil : Similar R [] []
  | cons {a : α} {b : β} {cs ts : List (Outline α)} {ds us : List (Outline β)} (label : R a b)
      (below : Similar R cs ds) (rest : Similar R ts us) :
      Similar R (.node a cs :: ts) (.node b ds :: us)

theorem Similar.append (h : Similar R ts us) (h' : Similar R ts' us') :
    Similar R (ts ++ ts') (us ++ us') := by
  induction h with
  | nil => exact h'
  | cons label below _ _ ih => exact .cons label below ih

theorem Similar.graft (h : Similar R ts us) (h' : Similar R ts' us') :
    Similar R (graft ts ts') (graft us us') := by
  induction h with
  | nil =>
    rw [Outline.graft, Outline.graft]
    exact h'
  | cons label below rest ihc iht =>
    cases rest with
    | nil =>
      rw [Outline.graft, Outline.graft]
      exact .cons label ihc .nil
    | cons =>
      rw [Outline.graft, Outline.graft]
      exact .cons label below iht

theorem similar_map_iff {R : γ → δ → Prop} {f : α → γ} {g : β → δ} :
    Similar R (ts.map (map f)) (us.map (map g)) ↔ Similar (fun a b => R (f a) (g b)) ts us := by
  constructor
  · intro h
    induction ts using forest_induction generalizing us with
    | nil =>
      cases us with
      | nil => exact .nil
      | cons u us => cases h
    | cons a cs ts ihc iht =>
      cases us with
      | nil => cases h
      | cons u us =>
        obtain ⟨b, ds⟩ := u
        rw [List.map_cons, List.map_cons, map_node, map_node] at h
        cases h with
        | cons label below rest => exact .cons label (ihc below) (iht rest)
  · intro h
    induction h with
    | nil => exact .nil
    | cons label _ _ ihc iht =>
      rw [List.map_cons, List.map_cons, map_node, map_node]
      exact .cons label ihc iht

theorem similar_refl {R : α → α → Prop} (refl : ∀ a, R a a) (ts : List (Outline α)) :
    Similar R ts ts := by
  induction ts using forest_induction with
  | nil => exact .nil
  | cons a cs ts ihc iht => exact .cons (refl a) ihc iht

theorem similar_eq_iff {us : List (Outline α)} : Similar (· = ·) ts us ↔ ts = us := by
  constructor
  · intro h
    induction h with
    | nil => rfl
    | cons label _ _ ihc iht => rw [label, ihc, iht]
  · rintro rfl
    exact similar_refl (fun _ => rfl) ts

theorem map_eq_map_iff {f : α → γ} {g : β → γ} :
    ts.map (map f) = us.map (map g) ↔ Similar (fun a b => f a = g b) ts us :=
  similar_eq_iff.symm.trans similar_map_iff

theorem map_forest_congr {f g : α → γ} (h : ∀ a ∈ labels ts, f a = g a) :
    ts.map (map f) = ts.map (map g) := by
  induction ts using forest_induction with
  | nil => rfl
  | cons a cs ts ihc iht =>
    rw [List.map_cons, List.map_cons, map_node, map_node, h a (by simp),
      ihc fun b hb => h b (by simp [hb]), iht fun b hb => h b (by simp [hb])]

end Outline

open Cell Outline

variable {σ τ : Type}

theorem similar_giveAll {R : Cell → Cell → Prop} {e e' : Element} {ts us : List (Outline Cell)}
    (give : ∀ c d, R c d → R (c.give e) (d.give e')) (h : Similar R ts us) :
    Similar R (giveAll e ts) (giveAll e' us) := by
  induction h with
  | nil => exact .nil
  | cons label below _ _ ih => exact .cons (give _ _ label) below ih

/-- The text is the template of some registered snippet. -/
def Registry.HasTemplate (r : Registry) (text : String) : Prop :=
  ∃ name s, r.find? name = some s ∧ s.body = .template text

theorem Registry.HasTemplate.of_due {r : Registry} {g : Guard} {e : Element} {s : Snippet}
    {text : String} (due : r.due? g e = some s) (body : s.body = .template text) :
    r.HasTemplate text := by
  obtain ⟨name, _, hfind, _⟩ := due?_eq_some_iff.mp due
  exact ⟨name, s, hfind, body⟩

namespace Rules

/-- Related cells have the same snippet due and give related data, and what the two rules read of
one registered template is similar. -/
structure Respect (ρ : Rules σ) (ρ' : Rules τ) (R : Cell → Cell → Prop) : Prop where
  registry : ρ'.registry = ρ.registry
  templates : ρ.registry.OfTemplates
  due : ∀ a b g, R a b → ρ.registry.due? g a.element = ρ.registry.due? g b.element
  give : ∀ a b c d, R a b → R c d → R (c.give a.element) (d.give b.element)
  read : ∀ text top top' us us', ρ.registry.HasTemplate text →
    ρ.reads text (.ok (.node top (us.map (Outline.map Cell.element)))) →
    ρ'.reads text (.ok (.node top' (us'.map (Outline.map Cell.element)))) →
    (∀ n ∈ ids us, ρ.fresh n) → (∀ n ∈ ids us', ρ'.fresh n) → Similar R us us'

/-- Similar forests are resolved to similar ones. -/
theorem Settles.similar {ρ : Rules σ} {ρ' : Rules τ} {R : Cell → Cell → Prop}
    (respect : ρ.Respect ρ' R) {g : Guard} {ts ts' us us' : List (Outline Cell)}
    {es es' : List Event} (h : ρ.Settles g ts es ts') (h' : ρ'.Settles g us es' us')
    (same : Similar R ts us) : Similar R ts' us' := by
  have not_handler : ∀ {g : Guard} {e : Element} {s : Snippet} {h : HandlerId},
      ρ.registry.due? g e = some s → s.body ≠ .handler h := respect.templates.not_handler
  induction h generalizing us us' es' with
  | nil =>
    cases same
    cases h'
    exact .nil
  | @keep g a cs cs' ts ts' _ _ due _ _ ihc iht =>
    cases same with
    | @cons _ b _ ds _ us label below rest =>
      rw [respect.due a b g label, ← respect.registry] at due
      cases h' with
      | keep _ own others => exact .cons label (ihc own below) (iht others rest)
      | handle due' => cases due.symm.trans due'
      | replace due' => cases due.symm.trans due'
  | handle due body => exact absurd body (not_handler due)
  | @replace g a cs cs' ts ts' vs vs' _ _ _ s text top due body read fresh _ _ _ ihv ihc iht =>
    have hbody := body
    have offered : ρ.registry.HasTemplate text := .of_due due body
    cases same with
    | @cons _ b _ ds _ us label below rest =>
      rw [respect.due a b g label, ← respect.registry] at due
      cases h' with
      | keep due' => cases due.symm.trans due'
      | handle due' body' =>
        cases Option.some.inj (due.symm.trans due')
        cases hbody.symm.trans body'
      | replace due' body' read' fresh' template' own' others' =>
        cases Option.some.inj (due.symm.trans due')
        cases Snippet.Body.template.inj (hbody.symm.trans body')
        have inner := ihv template' (respect.read _ _ _ _ _ offered read read' fresh fresh')
        have outer := inner.graft (ihc own' below)
        exact (similar_giveAll (respect.give a b · · label) outer).append (iht others' rest)

end Rules

end SnippetTree
