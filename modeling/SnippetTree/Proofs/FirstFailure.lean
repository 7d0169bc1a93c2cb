import SnippetTree.Proofs.Refinement
import SnippetTree.Proofs.Survivors

namespace SnippetTree

open Cell

variable {σ : Type}

theorem eq_of_first {α : Type} {P : α → Prop} {xs before before' after after' : List α} {a b : α}
    (ha : xs = before ++ a :: after) (hb : xs = before' ++ b :: after') (hpa : P a) (hpb : P b)
    (none : ∀ x ∈ before, ¬P x) (none' : ∀ x ∈ before', ¬P x) : a = b := by
  classical
  have hfirst : xs.find? (fun x => decide (P x)) = some a := List.find?_eq_some_iff_append.mpr
    ⟨decide_eq_true hpa, before, after, ha, fun x hx => by simpa using none x hx⟩
  have hfirst' : xs.find? (fun x => decide (P x)) = some b := List.find?_eq_some_iff_append.mpr
    ⟨decide_eq_true hpb, before', after', hb, fun x hx => by simpa using none' x hx⟩
  exact Option.some.inj (hfirst.symm.trans hfirst')

/-- Snippets that are all templates, with what comes of reading each. -/
structure Templates where
  registry : Registry
  only : registry.OfTemplates
  read : String → Except Fault (Outline Element)

namespace Templates

variable {t : Templates} {g : Guard} {e : Element} {fault : Fault} {ts ts' : List (Outline Cell)}

/-- Surroundings that look names up in the registry, and read templates as given. -/
def rules (t : Templates) (σ : Type) : Rules σ where
  registry := t.registry
  reads := fun text x => t.read text = x
  rewrite := fun _ e => e
  fresh := fun _ => True
  changes := fun _ _ _ => True

/-- What the templates stand for, as far as they can be read. -/
def plan (t : Templates) : Plan where
  registry := t.registry
  tree := fun text => (t.read text).toOption.getD (.node {} [])
  rewrite := fun _ e => e

theorem fits_plan : t.plan.Fits (t.rules σ) where
  registry := rfl
  rewrite := rfl
  tree := by
    intro text u h
    have hu : t.read text = .ok u := h
    simp only [plan, hu]
    rfl

/-- A snippet fails, while others are under expansion, if its template cannot be read, or if below
the root of its tree there is an element whose snippet is due and fails. -/
inductive Fails (t : Templates) : Guard → Snippet → Prop
  | unread {g : Guard} {s : Snippet} {text : String} {fault : Fault}
      (body : s.body = .template text) (read : t.read text = .error fault) : Fails t g s
  | inside {g : Guard} {s s' : Snippet} {text : String} {u : Outline Element} {e : Element}
      (body : s.body = .template text) (read : t.read text = .ok u)
      (mem : e ∈ Outline.labels u.children) (due : t.registry.due? (g.insert s) e = some s')
      (fails : Fails t (g.insert s) s') : Fails t g s

def FailsAt (t : Templates) (g : Guard) (e : Element) : Prop :=
  ∃ s, t.registry.due? g e = some s ∧ t.Fails g s

/-- The fault that comes of an element: that of its template, or that of the first element of its
tree from which one comes. -/
inductive Raises (t : Templates) : Guard → Element → Fault → Prop
  | unread {g : Guard} {e : Element} {s : Snippet} {text : String} {cause : Fault}
      (due : t.registry.due? g e = some s) (body : s.body = .template text)
      (read : t.read text = .error cause) :
      Raises t g e (.because (.unparsable text cause.message e.name) cause)
  | inside {g : Guard} {e b : Element} {s : Snippet} {text : String} {u : Outline Element}
      {before after : List Element} {fault : Fault} (due : t.registry.due? g e = some s)
      (body : s.body = .template text) (read : t.read text = .ok u)
      (split : Outline.labels u.children = before ++ b :: after)
      (first : ∀ x ∈ before, ¬t.FailsAt (g.insert s) x) (raises : Raises t (g.insert s) b fault) :
      Raises t g e fault

theorem Raises.failsAt (h : t.Raises g e fault) : t.FailsAt g e := by
  induction h with
  | unread due body read => exact ⟨_, due, .unread body read⟩
  | inside due body read split _ _ ih =>
    obtain ⟨s', due', fails⟩ := ih
    exact ⟨_, due, .inside body read (by simp [split]) due' fails⟩

/-- A fault is made once, where a template cannot be read, from what the reader reported there. -/
theorem Raises.fault_eq (h : t.Raises g e fault) : ∃ text cause name s,
    fault = .because (.unparsable text cause.message (some name)) cause ∧
      t.read text = .error cause ∧ t.registry.find? name = some s ∧ s.body = .template text := by
  induction h with
  | @unread g e s text cause due body read =>
    obtain ⟨name, hname, hfind, _⟩ := Registry.due?_eq_some_iff.mp due
    exact ⟨text, cause, name, s, by rw [hname], read, hfind, body⟩
  | inside _ _ _ _ _ _ ih => exact ih

/-- Up to a node, everything that comes before it and is not above it is replaced by its
expansion. The node, those above it and all that comes after it stay. -/
inductive ExpandedUpTo (t : Templates) (g : Guard) (n : NodeId) :
    List (Outline Cell) → List (Outline Cell) → Prop
  | here {e : Element} {cs ts : List (Outline Cell)} :
      ExpandedUpTo t g n (.node ⟨n, e⟩ cs :: ts) (.node ⟨n, e⟩ cs :: ts)
  | under {a : Cell} {cs cs' ts : List (Outline Cell)} (h : ExpandedUpTo t g n cs cs') :
      ExpandedUpTo t g n (.node a cs :: ts) (.node a cs' :: ts)
  | past {u : Outline Cell} {us ts ts' : List (Outline Cell)}
      (left : us.map (Outline.map Cell.element) = t.plan.expand g [u.map Cell.element])
      (h : ExpandedUpTo t g n ts ts') : ExpandedUpTo t g n (u :: ts) (us ++ ts')

theorem not_failsAt_of_not_due (due : t.registry.due? g e = none) : ¬t.FailsAt g e := by
  rintro ⟨s, hs, _⟩
  cases due.symm.trans hs

theorem not_failsAt_of_read {s : Snippet} {text : String} {top : Element}
    {us : List (Outline Cell)} (due : t.registry.due? g e = some s) (body : s.body = .template text)
    (read : t.read text = .ok (.node top (us.map (Outline.map Cell.element))))
    (below : ∀ a ∈ Outline.labels us, ¬t.FailsAt (g.insert s) a.element) : ¬t.FailsAt g e := by
  rintro ⟨s', hs', fails⟩
  cases Option.some.inj (due.symm.trans hs')
  cases fails with
  | unread body' read' =>
    cases Snippet.Body.template.inj (body.symm.trans body')
    cases read.symm.trans read'
  | inside body' read' mem due' fails' =>
    cases Snippet.Body.template.inj (body.symm.trans body')
    cases Except.ok.inj (read.symm.trans read')
    rw [Outline.children, Outline.labels_map] at mem
    obtain ⟨a, ha, rfl⟩ := List.mem_map.mp mem
    exact below a ha ⟨_, due', fails'⟩

theorem not_failsAt_of_settles {es : List Event} (h : (t.rules σ).Settles g ts es ts') :
    ∀ a ∈ Outline.labels ts, ¬t.FailsAt g a.element := by
  induction h with
  | nil => simp
  | keep due _ _ ihc iht =>
    intro b hb
    rw [Outline.labels_cons, List.mem_cons, List.mem_append] at hb
    rcases hb with rfl | hb | hb
    · exact not_failsAt_of_not_due due
    · exact ihc b hb
    · exact iht b hb
  | handle due body _ _ _ _ => exact absurd body (t.only.not_handler due)
  | replace due body read _ _ _ _ ihu ihc iht =>
    intro b hb
    rw [Outline.labels_cons, List.mem_cons, List.mem_append] at hb
    rcases hb with rfl | hb | hb
    · exact not_failsAt_of_read due body read ihu
    · exact ihc b hb
    · exact iht b hb

/-- The first node of a forest whose snippet fails gives the fault, and the forest is expanded up to
it. -/
def FailsFirst (t : Templates) (g : Guard) (ts ts' : List (Outline Cell)) (fault : Fault) : Prop :=
  ∃ before a after, Outline.labels ts = before ++ a :: after ∧
    (∀ b ∈ before, ¬t.FailsAt g b.element) ∧ t.Raises g a.element fault ∧
    t.ExpandedUpTo g a.id ts ts'

theorem FailsFirst.here {a : Cell} (cs ts : List (Outline Cell)) (h : t.Raises g a.element fault) :
    t.FailsFirst g (.node a cs :: ts) (.node a cs :: ts) fault :=
  ⟨[], a, Outline.labels cs ++ Outline.labels ts, Outline.labels_cons a cs ts, by simp, h, .here⟩

theorem FailsFirst.under {a : Cell} {cs cs' : List (Outline Cell)} (h : t.FailsFirst g cs cs' fault)
    (sound : ¬t.FailsAt g a.element) (ts : List (Outline Cell)) :
    t.FailsFirst g (.node a cs :: ts) (.node a cs' :: ts) fault := by
  obtain ⟨before, b, after, hsplit, hbefore, raises, upTo⟩ := h
  refine ⟨a :: before, b, after ++ Outline.labels ts, ?_, fun x hx => ?_, raises, .under upTo⟩
  · rw [Outline.labels_cons, hsplit, List.cons_append, List.append_assoc, List.cons_append]
  · rcases List.mem_cons.mp hx with rfl | hx
    · exact sound
    · exact hbefore x hx

theorem FailsFirst.past {u : Outline Cell} {us : List (Outline Cell)} {es : List Event}
    (h : t.FailsFirst g ts ts' fault) (first : (t.rules σ).Settles g [u] es us) :
    t.FailsFirst g (u :: ts) (us ++ ts') fault := by
  obtain ⟨before, a, after, hsplit, hbefore, raises, upTo⟩ := h
  refine ⟨Outline.labels [u] ++ before, a, after, ?_, fun b hb => ?_, raises, .past ?_ upTo⟩
  · have happend := Outline.labels_append [u] ts
    rw [List.singleton_append] at happend
    rw [happend, hsplit, List.append_assoc]
  · rcases List.mem_append.mp hb with hb | hb
    · exact not_failsAt_of_settles first b hb
    · exact hbefore b hb
  · exact Plan.map_of_settles fits_plan first

theorem failsFirst_of_stops (h : (t.rules σ).Stops g ts ts' fault) :
    t.FailsFirst g ts ts' fault := by
  induction h with
  | skip first _ ih => exact ih.past first
  | keep due _ ih => exact ih.under (not_failsAt_of_not_due due) _
  | handle due body _ _ => exact absurd body (t.only.not_handler due)
  | unread due body read => exact .here _ _ (.unread due body read)
  | @template g a cs ts us us' s text e fault due body read _ ih =>
    obtain ⟨before, b, after, hsplit, hbefore, raises, _⟩ := ih
    have hlabels : Outline.labels (us.map (Outline.map Cell.element)) =
        before.map Cell.element ++ b.element :: after.map Cell.element := by
      rw [Outline.labels_map, hsplit, List.map_append, List.map_cons]
    refine .here cs ts (.inside due body read hlabels (fun x hx => ?_) raises)
    obtain ⟨c, hc, rfl⟩ := List.mem_map.mp hx
    exact hbefore c hc
  | own due body read template _ ih =>
    exact ih.under (not_failsAt_of_read due body read (not_failsAt_of_settles template)) _

/-- From `s` to `s'`, the tree of `root` was expanded up to `n`, and the fault of `n` was raised.
One template could not be read, and the fault says which, why, and at which name it was met. -/
structure FailedAt (t : Templates) (s s' : Store) (root n : NodeId) (fault : Fault) : Prop where
  raises : t.Raises {} (s.element n) fault
  unparsable : ∃ text cause name x,
    fault = .because (.unparsable text cause.message (some name)) cause ∧
      t.read text = .error cause ∧ t.registry.find? name = some x ∧ x.body = .template text
  top : s'.element root = s.element root
  expanded : t.ExpandedUpTo {} n (s.forest root) (s'.forest root)

end Templates

/-- Where all snippets are templates, the resolution of a tree succeeds, given enough room, unless
there is a node whose snippet fails; then it fails at the first one. -/
theorem resolveBelow_failsFirst (t : Templates) (c : Surroundings σ)
    (describes : (t.rules σ).Describes c) (w : World σ) (sound : w.store.Sound) (root : NodeId) :
    ∃ k out w', (∀ limits : Limits, k ≤ limits.depth → k ≤ limits.steps →
        (resolveBelow (pure c) limits root).run w = (out, w')) ∧
      ((∀ n, w.store.Above root n → ¬t.FailsAt {} (w.store.element n)) → out = .done ()) ∧
      ∀ before n after, w.store.below root = before ++ n :: after →
        (∀ m ∈ before, ¬t.FailsAt {} (w.store.element m)) → t.FailsAt {} (w.store.element n) →
        ∃ fault, out = .failed fault ∧ t.FailedAt w.store w'.store root n fault := by
  obtain ⟨ts, hts, shown⟩ := sound.linked.exists_shows (w.store.children root)
  obtain ⟨out, w', ts', ⟨k, hk⟩, sound', reached⟩ :=
    Rules.resolveBelow_reaches describes ⟨sound, fun _ _ => trivial⟩ shown hts.symm
  have hbelow := Store.below_eq shown sound.linked hts.symm
  have helement : ∀ a ∈ Outline.labels ts, w.store.element a.id = a.element := fun a =>
    shown.element_eq
  refine ⟨k, out, w', hk, ?_⟩
  cases reached.yields with
  | done settles _ =>
    have hsound := Templates.not_failsAt_of_settles settles
    refine ⟨fun _ => rfl, fun before n after hsplit _ fails => ?_⟩
    have hn : n ∈ ids ts := by simp [← hbelow, hsplit]
    obtain ⟨a, ha, rfl⟩ := List.mem_map.mp hn
    exact absurd (helement a ha ▸ fails) (hsound a ha)
  | @failed fault stops =>
    obtain ⟨before', a, after', hsplit', hbefore', raises, upTo⟩ :=
      Templates.failsFirst_of_stops stops
    have ha : a ∈ Outline.labels ts := by simp [hsplit']
    have hfails : t.FailsAt {} (w.store.element a.id) := helement a ha ▸ raises.failsAt
    have habove : w.store.Above root a.id :=
      (shown.mem_ids_iff_above sound.linked hts.symm).mp (List.mem_map_of_mem ha)
    refine ⟨fun hnone => absurd hfails (hnone a.id habove),
      fun before n after hsplit hbefore fails => ⟨fault, rfl, ?_⟩⟩
    have hids : ids ts = before'.map Cell.id ++ a.id :: after'.map Cell.id := by
      rw [ids, hsplit', List.map_append, List.map_cons]
    have hsafe : ∀ m ∈ before'.map Cell.id, ¬t.FailsAt {} (w.store.element m) := by
      intro m hm
      obtain ⟨b, hb, rfl⟩ := List.mem_map.mp hm
      rw [helement b (by simp [hsplit', hb])]
      exact hbefore' b hb
    cases eq_of_first hsplit (hbelow.trans hids) fails hfails hbefore hsafe
    have hroot : root ∉ ids ts := fun hm => sound.linked.acyclic root
      ((shown.mem_ids_iff_above sound.linked hts.symm).mp hm)
    refine ⟨helement a ha ▸ raises, raises.fault_eq,
      reached.frame.element root (sound.linked.above_mem habove) hroot, ?_⟩
    rw [shown.forest_eq sound.linked hts.symm,
      reached.shown.forest_eq sound'.linked (by simpa using reached.children)]
    exact upTo

def Registry.broken : Registry :=
  ⟨((Keyed.insert ∅ "x" { serial := 0, body := .template "a>y" }).insert "y"
    { serial := 1, body := .template "(" }).insert "z" { serial := 2, body := .template "b" }⟩

/-- A snippet `x` whose template mentions `y`, a snippet `y` whose template cannot be read, and a
snippet `z` without faults. -/
def Templates.broken : Templates where
  registry := .broken
  only := ((Registry.ofTemplates_empty.insert "x" 0 "a>y").insert "y" 1 "(").insert "z" 2 "b"
  read := fun text =>
    if text = "a>y" then .ok (.node {} [.node { name := some "a" } [.node { name := some "y" } []]])
    else if text = "b" then .ok (.node {} [.node { name := some "b" } []])
    else .error (.raised "ValueError" "unexpected end")

namespace Templates

theorem failsAt_broken : broken.FailsAt {} { name := some "x" } := by
  let x : Snippet := { serial := 0, body := .template "a>y" }
  let y : Snippet := { serial := 1, body := .template "(" }
  have due : broken.registry.due? {} { name := some "x" } = some x := by decide
  have due' : broken.registry.due? (Guard.insert {} x) { name := some "y" } = some y := by decide
  have read : broken.read "a>y" =
      .ok (.node {} [.node { name := some "a" } [.node { name := some "y" } []]]) := rfl
  exact ⟨x, due, .inside rfl read (by decide) due' (.unread rfl rfl)⟩

theorem not_failsAt_broken : ¬broken.FailsAt {} { name := some "z" } := by
  let z : Snippet := { serial := 2, body := .template "b" }
  have due : broken.registry.due? {} { name := some "z" } = some z := by decide
  have read : broken.read "b" = .ok (.node {} (List.map (Outline.map Cell.element)
    [.node ⟨⟨0⟩, { name := some "b" }⟩ []])) := rfl
  refine not_failsAt_of_read due rfl read fun a ha => ?_
  cases List.mem_singleton.mp ha
  exact not_failsAt_of_not_due (by decide)

theorem unread_broken {text name : String} {s : Snippet} {cause : Fault}
    (find : broken.registry.find? name = some s) (body : s.body = .template text)
    (read : broken.read text = .error cause) :
    text = "(" ∧ name = "y" ∧ cause = .raised "ValueError" "unexpected end" := by
  change Registry.broken.find? name = some s at find
  simp only [Registry.find?, Registry.broken, Keyed.find?_insert] at find
  split at find
  next =>
    cases find
    cases body
    simp [broken] at read
  next =>
    split at find
    next hname =>
      cases find
      cases body
      have hcause : .raised "ValueError" "unexpected end" = cause := by simpa [broken] using read
      exact ⟨rfl, hname, hcause.symm⟩
    next =>
      split at find
      next =>
        cases find
        cases body
        simp [broken] at read
      next => cases find

end Templates

/-- In `z+p>x+z`, the node `x` is the first whose snippet fails, and the fault is that of `y`. -/
theorem resolveBelow_failsFirst_broken :
    ∃ (c : Surroundings Unit) (w : World Unit) (root : NodeId) (before after : List NodeId)
      (n : NodeId), (Templates.broken.rules Unit).Describes c ∧ w.store.Sound ∧
      (w.store.document root).children = [.node { name := some "z" } [], .node { name := some "p" }
        [.node { name := some "x" } [], .node { name := some "z" } []]] ∧
      w.store.below root = before ++ n :: after ∧
      (∀ m ∈ before, ¬Templates.broken.FailsAt {} (w.store.element m)) ∧
      Templates.broken.FailsAt {} (w.store.element n) ∧
      ∃ k w', (∀ limits : Limits, k ≤ limits.depth → k ≤ limits.steps →
          (resolveBelow (pure c) limits root).run w = (.failed (.because (.unparsable "("
            "unexpected end" (some "y")) (.raised "ValueError" "unexpected end")), w')) ∧
        Templates.broken.FailedAt w.store w'.store root n (.because (.unparsable "("
          "unexpected end" (some "y")) (.raised "ValueError" "unexpected end")) := by
  obtain ⟨w, root, sound, _, hdocument⟩ := exists_world (.node {} [.node { name := some "z" } [],
    .node { name := some "p" } [.node { name := some "x" } [], .node { name := some "z" } []]]) ()
  have describes : (Templates.broken.rules Unit).Describes
      (.planting Templates.broken.registry Templates.broken.read) := by
    refine Surroundings.planting_describes (fun text => ?_) (fun _ _ => rfl) fun _ _ => trivial
    change Templates.broken.read text = _
    simp only [Templates.broken]
    split
    next => rfl
    next => split <;> rfl
  have hmap : (w.store.below root).map w.store.element =
      [{ name := some "z" }, { name := some "p" }] ++
        [{ name := some "x" }, { name := some "z" }] := by
    rw [w.store.map_element_below root, hdocument]
    rfl
  obtain ⟨before, rest, hsplit, hbefore, hrest⟩ := List.map_eq_append_iff.mp hmap
  obtain ⟨n, after, rfl, hn, _⟩ := List.map_eq_cons_iff.mp hrest
  have hsafe : ∀ m ∈ before, ¬Templates.broken.FailsAt {} (w.store.element m) := by
    intro m hm
    have hmem := List.mem_map_of_mem (f := w.store.element) hm
    rw [hbefore, List.mem_pair] at hmem
    rcases hmem with he | he <;> rw [he]
    · exact Templates.not_failsAt_broken
    · exact Templates.not_failsAt_of_not_due (by decide)
  have hfails : Templates.broken.FailsAt {} (w.store.element n) := hn ▸ Templates.failsAt_broken
  obtain ⟨k, out, w', hrun, _, hfail⟩ :=
    resolveBelow_failsFirst Templates.broken _ describes w sound root
  obtain ⟨fault, rfl, failed⟩ := hfail before n after hsplit hsafe hfails
  obtain ⟨text, cause, name, s, rfl, hread, hfind, hbody⟩ := failed.unparsable
  obtain ⟨rfl, rfl, rfl⟩ := Templates.unread_broken hfind hbody hread
  exact ⟨_, w, root, before, after, n, describes, sound, by rw [hdocument]; rfl, hsplit, hsafe,
    hfails, k, w', hrun, failed⟩

end SnippetTree
