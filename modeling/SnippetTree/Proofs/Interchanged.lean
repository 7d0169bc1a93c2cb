import SnippetTree.Proofs.Schemes
import SnippetTree.Proofs.Similar

namespace SnippetTree

open Cell Outline

variable {σ τ : Type}

namespace Registry

variable {r r' : Registry} {g : Guard} {e e' x x' : Element}

/-- The names, if there are any, are equal, or both are registered with the same snippet. -/
def Synonyms (r : Registry) (name name' : Option String) : Prop :=
  name = name' ∨ ∃ s, name.bind r.find? = some s ∧ name'.bind r.find? = some s

theorem Synonyms.bind_find?_eq {name name' : Option String} (h : r.Synonyms name name') :
    name.bind r.find? = name'.bind r.find? := by
  rcases h with rfl | ⟨s, hs, hs'⟩
  · rfl
  · rw [hs, hs']

theorem Synonyms.symm {name name' : Option String} (h : r.Synonyms name name') :
    r.Synonyms name' name := by
  rcases h with rfl | ⟨s, hs, hs'⟩
  · exact Or.inl rfl
  · exact Or.inr ⟨s, hs', hs⟩

/-- Sharing a snippet makes the two names synonyms. -/
theorem synonyms_of_share {name target : String} {s : Snippet}
    (h : r.share name target = .ok (r', s)) : r'.Synonyms (some name) (some target) := by
  unfold share at h
  split at h
  next snippet hfind =>
    cases h
    refine Or.inr ⟨s, ?_, ?_⟩
    · rw [Option.bind_some, find?, Keyed.find?_insert, if_pos rfl]
    · rw [Option.bind_some, find?, Keyed.find?_insert]
      split
      next => rfl
      next => exact hfind
  next => cases h

/-- The elements show the same but for their names, which are synonyms. -/
structure Alike (r : Registry) (e e' : Element) : Prop where
  names : r.Synonyms e.name e'.name
  data : { e with name := none } = { e' with name := none }

theorem Alike.refl (r : Registry) (e : Element) : r.Alike e e := ⟨Or.inl rfl, rfl⟩

theorem Alike.due?_eq (h : r.Alike e e') (g : Guard) : r.due? g e = r.due? g e' := by
  unfold due?
  rw [h.names.bind_find?_eq]

theorem Alike.eq_of_not_due (h : r.Alike e e') (due : r.due? {} e = none) : e = e' := by
  have hname : e.name = e'.name := by
    rcases h.names with hname | ⟨s, hs, _⟩
    · exact hname
    · have hsome : r.due? {} e = some s := by
        rw [due?, hs]
        rfl
      cases hsome.symm.trans due
  have hdata := h.data
  cases e
  cases e'
  cases hname
  simpa using hdata

theorem Alike.merge (given : r.Alike e e') (own : r.Alike x x') :
    r.Alike (x.merge e) (x'.merge e') where
  names := own.names
  data := by
    have hmerge : ∀ x e : Element, { x.merge e with name := none } =
        Element.merge { x with name := none } { e with name := none } := fun _ _ => rfl
    rw [hmerge, hmerge, own.data, given.data]

theorem Alike.merge_eq (given : r.Alike e e') (x : Element) : x.merge e = x.merge e' := by
  have hmerge : ∀ e : Element, x.merge e = x.merge { e with name := none } := fun _ => rfl
  rw [hmerge e, hmerge e', given.data]

end Registry

namespace Scheme

variable {S : Scheme σ} {S' : Scheme τ}

/-- Schemes that share their registry and read each template to alike trees take alike nodes to alike
ones. -/
theorem respect_alike (templates : S.registry.OfTemplates) (same : S'.registry = S.registry)
    (alike : ∀ text, S.registry.HasTemplate text → ∀ a b,
      Similar S.registry.Alike (S.read text a).1.children (S'.read text b).1.children) :
    S.rules.Respect S'.rules fun a b => S.registry.Alike a.element b.element where
  registry := same
  templates := templates
  due := fun a b g h => h.due?_eq g
  give := fun a b c d given own => given.merge own
  read := by
    rintro text top top' us us' offered ⟨a, ha⟩ ⟨b, hb⟩ _ _
    have hread := alike text offered a b
    rw [← Except.ok.inj ha, ← Except.ok.inj hb] at hread
    exact similar_map_iff.mp hread

/-- Alike forests grow to the same one. Of two nodes with different names both are replaced, so which
names they had cannot be told any more. -/
theorem grow_eq_of_alike (templates : S.registry.OfTemplates) {ts us : List (Outline Element)}
    (alike : Similar S.registry.Alike ts us) (a : σ) : S.grow {} ts a = S.grow {} us a := by
  induction alike generalizing a with
  | nil => rfl
  | @cons e e' cs ds ts us label _ _ ihc iht =>
    cases due : S.registry.due? {} e with
    | none =>
      have he := label.eq_of_not_due due
      subst he
      rw [grow_keep due, grow_keep due, ihc, iht]
    | some s =>
      obtain ⟨text, body⟩ := templates.body due
      have due' : S.registry.due? {} e' = some s := (label.due?_eq {}).symm.trans due
      have hmerge : (fun x : Element => x.merge e) = fun x => x.merge e' := funext label.merge_eq
      rw [grow_replace due body, grow_replace due' body, hmerge]
      simp only [ihc, iht]

end Scheme

/-- Names that share a snippet are interchangeable. Trees that are alike, resolved with readers that
read each template to alike trees, give alike trees; and if the readers are the same, in the same
state, they give the same tree, whichever names their nodes had. -/
theorem resolveBelow_interchanges (r : Registry) (templates : r.OfTemplates) :
    (∀ (S : Scheme σ) (S' : Scheme τ), S.registry = r → S'.registry = r →
      (∀ text, r.HasTemplate text → ∀ a b,
        Similar r.Alike (S.read text a).1.children (S'.read text b).1.children) →
      ∀ c c', S.rules.Describes c → S'.rules.Describes c' →
      ∀ (w : World σ) (w' : World τ) root root', w.store.Sound → w'.store.Sound →
      Similar r.Alike (w.store.document root).children (w'.store.document root').children →
      ∃ k v v', (∀ limits : Limits, k ≤ limits.depth → k ≤ limits.steps →
          (resolveBelow (pure c) limits root).run w = (.done (), v) ∧
          (resolveBelow (pure c') limits root').run w' = (.done (), v')) ∧
        Similar r.Alike (v.store.document root).children (v'.store.document root').children) ∧
    ∀ S : Scheme σ, S.registry = r → ∀ c c', S.rules.Describes c → S.rules.Describes c' →
      ∀ (w w' : World σ) root root', w.store.Sound → w'.store.Sound → w.state = w'.state →
      Similar r.Alike (w.store.document root).children (w'.store.document root').children →
      ∃ k v v', (∀ limits : Limits, k ≤ limits.depth → k ≤ limits.steps →
          (resolveBelow (pure c) limits root).run w = (.done (), v) ∧
          (resolveBelow (pure c') limits root').run w' = (.done (), v')) ∧
        (v.store.document root).children = (v'.store.document root').children ∧
        v.state = v'.state := by
  constructor
  · rintro S S' rfl same readings c c' describes describes' w w' root root' sound sound' alike
    obtain ⟨v, es, hends, soundv, settles, _⟩ := Rules.resolveBelow_settles describes
      ⟨sound, fun _ _ => trivial⟩ Scheme.not_reads_error root
    obtain ⟨v', es', hends', soundv', settles', _⟩ := Rules.resolveBelow_settles describes'
      ⟨sound', fun _ _ => trivial⟩ Scheme.not_reads_error root'
    obtain ⟨k, hk⟩ := hends.both hends'
    refine ⟨k, v, v', hk, ?_⟩
    rw [sound.linked.children_document, sound'.linked.children_document, similar_map_iff] at alike
    rw [soundv.linked.children_document, soundv'.linked.children_document, similar_map_iff]
    exact settles.similar (Scheme.respect_alike templates same readings) settles' alike
  · rintro S rfl c c' describes describes' w w' root root' sound sound' state alike
    obtain ⟨v, _, hends, _, _, hgrow⟩ :=
      Scheme.resolveBelow_reaches templates describes.depicts sound root
    obtain ⟨v', _, hends', _, _, hgrow'⟩ :=
      Scheme.resolveBelow_reaches templates describes'.depicts sound' root'
    obtain ⟨k, hk⟩ := hends.both hends'
    refine ⟨k, v, v', hk, ?_⟩
    rw [Scheme.grow_eq_of_alike templates alike, state, hgrow'] at hgrow
    have hsame := Prod.mk.inj hgrow
    exact ⟨hsame.1.symm, hsame.2.symm⟩

/-- A snippet named `x` and `z`. -/
def Registry.aliased : Registry :=
  let x : Snippet := { serial := 0, body := .template "a>z", name := some "x" }
  ⟨(Keyed.insert ∅ "x" x).insert "z" x⟩

theorem Registry.exists_aliased : ∃ a s, Registry.add ∅ 0 "x" (.template "a>z") = .ok a ∧
    a.registry.share "z" "x" = .ok (Registry.aliased, s) :=
  ⟨_, _, rfl, rfl⟩

/-- A reader whose trees are `a` with a node of the given name below. -/
def Scheme.mentioning (name : String) : Scheme Unit where
  registry := Registry.aliased
  read _ _ := (.node {} [.node { name := some "a" } [.node { name := some name } []]], ())

/-- Whether a template that mentions itself does so by the one or the other name, and whichever of them
the tree `x>b` or `z>b` has on top, the results are alike; with one reader they are equal. -/
theorem resolveBelow_interchanges_aliased :
    ∃ (c c' : Surroundings Unit) (w w' : World Unit) (root root' : NodeId),
      Registry.aliased.OfTemplates ∧ (Scheme.mentioning "z").rules.Describes c ∧
      (Scheme.mentioning "x").rules.Describes c' ∧ w.store.Sound ∧ w'.store.Sound ∧
      (w.store.document root).children =
        [.node { name := some "x", value := some "v" } [.node { name := some "b" } []]] ∧
      (w'.store.document root').children =
        [.node { name := some "z", value := some "v" } [.node { name := some "b" } []]] ∧
      (∃ k v v', (∀ limits : Limits, k ≤ limits.depth → k ≤ limits.steps →
          (resolveBelow (pure c) limits root).run w = (.done (), v) ∧
          (resolveBelow (pure c') limits root').run w' = (.done (), v')) ∧
        Similar Registry.aliased.Alike (v.store.document root).children
          (v'.store.document root').children) ∧
      ∃ k v v', (∀ limits : Limits, k ≤ limits.depth → k ≤ limits.steps →
          (resolveBelow (pure c) limits root).run w = (.done (), v) ∧
          (resolveBelow (pure c) limits root').run w' = (.done (), v')) ∧
        (v.store.document root).children = (v'.store.document root').children ∧
        v.state = v'.state := by
  have tree : ∀ name : String, ∃ (w : World Unit) (root : NodeId), w.store.Sound ∧
      (w.store.document root).children =
        [.node { name := some name, value := some "v" } [.node { name := some "b" } []]] := by
    intro name
    obtain ⟨w, root, sound, _, hdocument⟩ := exists_world (.node {}
      [.node { name := some name, value := some "v" } [.node { name := some "b" } []]]) ()
    exact ⟨w, root, sound, by rw [hdocument]; rfl⟩
  obtain ⟨w, root, sound, hdocument⟩ := tree "x"
  obtain ⟨w', root', sound', hdocument'⟩ := tree "z"
  have templates : Registry.aliased.OfTemplates := by
    intro name s hfind
    have hs : s ∈ [_, _] := Registry.mem_values_of_find? hfind
    rcases List.mem_pair.mp hs with rfl | rfl <;> exact ⟨_, rfl⟩
  have describes : ∀ name, (Scheme.mentioning name).rules.Describes
      (Scheme.mentioning name).surroundings := fun name =>
    Scheme.surroundings_describes _ fun _ _ => rfl
  obtain ⟨a, s, _, hshare⟩ := Registry.exists_aliased
  have synonyms : Registry.aliased.Synonyms (some "z") (some "x") :=
    Registry.synonyms_of_share hshare
  have kept : ∀ e, Registry.aliased.Alike e e := Registry.Alike.refl _
  have alike : Similar Registry.aliased.Alike (w.store.document root).children
      (w'.store.document root').children := by
    rw [hdocument, hdocument']
    exact .cons ⟨synonyms.symm, rfl⟩ (.cons (kept _) .nil .nil) .nil
  obtain ⟨pairs, same⟩ := resolveBelow_interchanges (σ := Unit) (τ := Unit) _ templates
  refine ⟨_, _, w, w', root, root', templates, describes "z", describes "x", sound, sound', hdocument,
    hdocument', pairs (.mentioning "z") (.mentioning "x") rfl rfl (fun _ _ _ _ => ?_) _ _
      (describes "z") (describes "x") w w' root root' sound sound' alike,
    same (.mentioning "z") rfl _ _ (describes "z") (describes "z") w w' root root' sound sound' rfl
      alike⟩
  exact .cons (kept _) (.cons ⟨synonyms, rfl⟩ .nil .nil) .nil

end SnippetTree
