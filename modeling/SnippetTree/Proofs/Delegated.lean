import SnippetTree.Proofs.Schemes

namespace SnippetTree

open Cell Script Resolution

variable {σ : Type}

def Snippet.isTemplate (s : Snippet) : Bool :=
  match s.body with
  | .template _ => true
  | .handler _ => false

theorem Snippet.isTemplate_iff {s : Snippet} :
    s.isTemplate = true ↔ ∃ text, s.body = .template text := by
  unfold isTemplate
  split
  next text body => simp [body]
  next h body => simp [body]

theorem Snippet.body_ne_handler {s : Snippet} {h : HandlerId} (template : s.isTemplate = true) :
    s.body ≠ .handler h := by
  obtain ⟨text, body⟩ := isTemplate_iff.mp template
  simp [body]

namespace Keyed

variable {β : Type}

def filter (m : Keyed β) (keep : β → Bool) : Keyed β where
  entries := m.entries.filter fun entry => keep entry.2
  nodup := m.nodup.sublist (List.filter_sublist.map _)

theorem find?_filter (m : Keyed β) (keep : β → Bool) (key : String) :
    (m.filter keep).find? key = (m.find? key).filter keep := by
  obtain ⟨entries, nodup⟩ := m
  simp only [filter, find?]
  induction entries with
  | nil => rfl
  | cons entry rest ih =>
    rw [List.map_cons, List.nodup_cons] at nodup
    specialize ih nodup.2
    by_cases hkey : entry.1 = key
    · subst hkey
      -- no other entry has this key
      have hnone : (rest.find? fun other => decide (other.1 = entry.1)) = none := by
        refine List.find?_eq_none.mpr fun other hother he => nodup.1 ?_
        exact of_decide_eq_true he ▸ List.mem_map_of_mem hother
      rw [hnone, Option.map_none, Option.filter_none] at ih
      by_cases hkeep : keep entry.2 = true
      · rw [List.filter_cons, if_pos hkeep, List.find?_cons_of_pos (by simp),
          List.find?_cons_of_pos (by simp), Option.map_some, Option.filter_some, if_pos hkeep]
      · rw [List.filter_cons, if_neg hkeep, List.find?_cons_of_pos (by simp), ih, Option.map_some,
          Option.filter_some, if_neg hkeep]
    · rw [List.find?_cons_of_neg (by simpa using hkey), ← ih]
      by_cases hkeep : keep entry.2 = true
      · rw [List.filter_cons, if_pos hkeep, List.find?_cons_of_neg (by simpa using hkey)]
      · rw [List.filter_cons, if_neg hkeep]

end Keyed

namespace Registry

variable {r : Registry} {target : HandlerId → String} {name last other : String} {e : Element}

/-- From the first name, handlers lead to the second one, which has none. -/
inductive Delegates (r : Registry) (target : HandlerId → String) : String → String → Prop
  | here {name : String} (plain : ∀ s, r.find? name = some s → s.isTemplate = true) :
      Delegates r target name name
  | step {name last : String} {s : Snippet} {h : HandlerId} (found : r.find? name = some s)
      (body : s.body = .handler h) (rest : Delegates r target (target h) last) :
      Delegates r target name last

theorem Delegates.unique (h : r.Delegates target name last) (h' : r.Delegates target name other) :
    last = other := by
  induction h with
  | here plain =>
    cases h' with
    | here _ => rfl
    | step found body _ => exact absurd body (Snippet.body_ne_handler (plain _ found))
  | step found body _ ih =>
    cases h' with
    | here plain => exact absurd body (Snippet.body_ne_handler (plain _ found))
    | step found' body' rest' =>
      cases Option.some.inj (found.symm.trans found')
      cases Snippet.Body.handler.inj (body.symm.trans body')
      exact ih rest'

def withoutHandlers (r : Registry) : Registry := ⟨r.snippets.filter Snippet.isTemplate⟩

theorem find?_withoutHandlers (r : Registry) (name : String) :
    r.withoutHandlers.find? name = (r.find? name).filter Snippet.isTemplate :=
  Keyed.find?_filter ..

theorem ofTemplates_withoutHandlers (r : Registry) : r.withoutHandlers.OfTemplates := by
  intro name s found
  rw [find?_withoutHandlers, Option.filter_eq_some_iff] at found
  exact Snippet.isTemplate_iff.mp found.2

theorem due?_withoutHandlers
    (plain : ∀ name s, e.name = some name → r.find? name = some s → s.isTemplate = true)
    (g : Guard) : r.withoutHandlers.due? g e = r.due? g e := by
  have hbind : e.name.bind r.withoutHandlers.find? = e.name.bind r.find? := by
    cases hname : e.name with
    | none => rfl
    | some name =>
      rw [Option.bind_some, Option.bind_some, find?_withoutHandlers]
      cases hfind : r.find? name with
      | none => rfl
      | some s => rw [Option.filter_some, if_pos (plain name s hname hfind)]
  rw [due?, due?, hbind]

end Registry

def Element.rename (f : String → String) (e : Element) : Element := { e with name := e.name.map f }

/-- What a handler does that gives its node another name and goes on with it. -/
def Script.delegate (next : String) (n : NodeId) : Script σ NodeId Unit := do
  perform (.setName n (some next))
  request n

theorem Script.run_serve_request {ρ : Type} (answer : ρ → Script σ Empty Unit) (q : ρ)
    (w : World σ) : ((request q).serve answer).run w = (answer q).run w := by
  change ((answer q).attempt.bind fun out => (ofExcept out).serve answer).run w = _
  rw [run_bind, run_attempt]
  rcases (answer q).run w with ⟨out, w'⟩
  cases out <;> rfl

namespace World

variable {w : World σ} {n : NodeId}

/-- The world once a handler has given its node another name. -/
def handed (w : World σ) (n : NodeId) (name next : String) : World σ :=
  let s := (Edit.report (.passing name)).apply w.store
  { w with store := (Edit.setName n (some next)).apply s }

theorem sound_handed (sound : w.store.Sound) (n : NodeId) (name next : String) :
    (w.handed n name next).store.Sound := by
  have sound₁ := Edit.sound_apply (e := .report (.passing name)) sound rfl
  exact Edit.sound_apply (e := .setName n (some next)) sound₁ rfl

theorem redrawn_handed (held : n ∈ w.store) (name next : String) :
    w.store.Redrawn (w.handed n name next).store n { w.store.element n with name := some next } := by
  let s₁ := (Edit.report (.passing name)).apply w.store
  have held₁ : n ∈ s₁ := held
  have redrawn := Store.Redrawn.modifyData held₁ ({ · with name := some next })
  exact ⟨redrawn.held, redrawn.guards, redrawn.links, redrawn.element, redrawn.others⟩

end World

namespace Account

variable {A : Account σ} {visit : Limits → NodeId → Script σ Empty Unit} {G : Guard} {a : Cell}
  {e : Element} {cs : List (Outline Cell)} {p : NodeId} {before after : List NodeId} {w w₁ : World σ}

/-- A visit may change what its node shows and then go on as the visit of a node that shows that. -/
theorem Meets.of_redrawn (frame : w.store.Frame w₁.store [a.id] [])
    (ends : ∀ r, Ends (visit · a.id) w₁ r → Ends (visit · a.id) w r)
    (yields : ∀ ts' w' out, A.yields G [.node { a with element := e } cs] ts' w₁ w' out →
      A.yields G [.node a cs] ts' w w' out)
    (h : A.Meets visit G { a with element := e } cs p before after w₁) :
    A.Meets visit G a cs p before after w := by
  rcases h with ⟨w₂, e', hends, passed⟩ | ⟨out, w₂, us, hends, hempty, reached⟩
  · exact Or.inl ⟨w₂, e', ends _ hends, (frame.trans passed.frame).mono (by simp) (by simp),
      passed.element, fun cs' w' out h => yields _ _ _ (passed.lift cs' w' out h)⟩
  · have frame₂ := reached.frame
    rw [ids_singleton] at frame₂
    refine Or.inr ⟨out, w₂, us, ends _ hends, hempty, ?_, reached.shown, fun m hm => ?_,
      reached.children, yields _ _ _ reached.yields⟩
    · rw [ids_singleton]
      exact (frame.trans frame₂).mono (by simp) (by simp)
    · exact (reached.origin m hm).imp (fun hm => by simpa using hm) fun hnew hm =>
        hnew (frame.held m hm)

end Account

namespace Scheme

variable {S : Scheme σ} {final : String → String} {target : HandlerId → String} {G : Guard}
  {g : GuardId} {a : Cell} {cs us : List (Outline Cell)} {p tree : NodeId}
  {before after : List NodeId} {w w₀ : World σ} {x : Snippet} {text : String}

/-- The scheme without handlers, whose reader puts in the place of each name the one at which the
handlers end. -/
def direct (S : Scheme σ) (final : String → String) : Scheme σ where
  registry := S.registry.withoutHandlers
  read text a := ((S.read text a).1.map (Element.rename final), (S.read text a).2)

/-- A forest with the names put in place. -/
def renamed (final : String → String) (ts : List (Outline Cell)) : List (Outline Element) :=
  ts.map (Outline.map fun a => a.element.rename final)

@[simp] theorem renamed_nil : renamed final [] = [] := rfl

@[simp] theorem renamed_cons (a : Cell) (cs ts : List (Outline Cell)) :
    renamed final (.node a cs :: ts) =
      .node (a.element.rename final) (renamed final cs) :: renamed final ts := by
  rw [renamed, List.map_cons, Outline.map_node]
  rfl

theorem renamed_append (ts us : List (Outline Cell)) :
    renamed final (ts ++ us) = renamed final ts ++ renamed final us := List.map_append

/-- The account of a resolution with handlers: a forest becomes what it grows to without them, once
the names are put in place. Only templates come under expansion. -/
def delegated (S : Scheme σ) (final : String → String) : Account σ where
  yields G ts ts' w w' out := out = .done () ∧ (S.direct final).grow G (renamed final ts) w.state =
    (ts'.map (Outline.map Cell.element), w'.state)
  fresh _ := True
  admits G := ∀ s, G.contains s = true → s.isTemplate = true
  admits_empty := nofun
  ended := by
    rintro G ts ts' w w' out ⟨rfl, _⟩
    simp
  nil := fun G w => ⟨rfl, by simp⟩
  append := by
    rintro G p before t us' ts ts' w w₁ w' out _ _ ⟨_, h⟩ ⟨rfl, h'⟩
    refine ⟨rfl, ?_⟩
    rw [renamed_append, grow_append S.registry.ofTemplates_withoutHandlers, h, h', List.map_append]
  append_failed := by
    rintro G us us' w w' fault ⟨h, _⟩
    cases h
  around := by
    rintro G ts ts' w w₁ w₂ w' out start ⟨rfl, h⟩ rest
    refine ⟨rfl, ?_⟩
    rw [← start.state, h, rest.state]

theorem lifts_delegated {top : Element} (admitted : (S.delegated final).admits (G.insert x))
    (same : a.element.rename final = a.element)
    (due : (S.direct final).registry.due? G a.element = some x) (body : x.body = .template text)
    (read : S.read text w₀.state = (.node top (us.map (Outline.map Cell.element)), w.state)) :
    (S.delegated final).Lifts G a cs x tree p us w₀ w where
  admitted := admitted
  template := by
    rintro us' w₁ fault ⟨h, _⟩
    cases h
  own := by
    rintro us' cs' w₁ w₂ fault _ ⟨h, _⟩
    cases h
  done := by
    rintro us' cs' w₁ w₂ last w' _ ⟨_, h⟩ ⟨_, h'⟩ concludes
    have hread : (S.direct final).read text w₀.state =
        (.node (top.rename final) (renamed final us), w.state) := by
      simp only [direct, read, Outline.map_node, Outline.map_map_forest]
      rfl
    refine ⟨rfl, ?_⟩
    rw [renamed_cons, same, renamed_nil, grow_replace due body, hread]
    simp only [Outline.children, h, h', grow_nil, List.append_nil]
    rw [map_giveAll, Outline.map_graft, concludes.state]

theorem ends_under_delegating {c : Nat → Surroundings σ} {n : NodeId} {name : String} {s : Snippet}
    {h : HandlerId} {r : Outcome Unit × World σ} (depicts : S.rules.Depicts c)
    (delegates : ∀ k h n, (c k).handle h n = delegate (target h) n)
    (hname : (w.store.data n).name = some name) (found : S.registry.find? name = some s)
    (body : s.body = .handler h) (inactive : (w.store.guardAt g).contains s = false)
    (hends : Ends (visitUnder c g · n) (w.handed n name (target h)) r) :
    Ends (visitUnder c g · n) w r := by
  obtain ⟨state, hstate, hlookup⟩ := depicts.lookup name w
  rw [show S.rules.registry.find? name = some s from found] at hlookup
  cases hstate
  refine ends_under_of_answer hname hlookup (ends_follow_of_handler inactive body ?_)
  simp only [delegates]
  obtain ⟨k, hk⟩ := hends
  exact ⟨k, fun l hd hs => (run_serve_request (visitUnder c g l) n _).trans (hk l hd hs)⟩

section

variable {c : Nat → Surroundings σ} (depicts : S.rules.Depicts c)
  (walksT : ∀ x e, S.registry.due? G e = some x → ∀ g us, (S.delegated final).Walks (visitUnder c g)
    ((S.delegated final).Ready g (G.insert x)) (G.insert x) us)
  (walks : (S.delegated final).Walks (visitUnder c g) ((S.delegated final).Ready g G) G cs)

include depicts walksT walks

theorem meets_plain (ready : (S.delegated final).Ready g G w.store)
    (stands : w.store.Stands a cs p before after) (same : a.element.rename final = a.element)
    (plain : ∀ name s, a.element.name = some name → S.registry.find? name = some s →
      s.isTemplate = true) :
    (S.delegated final).Meets (visitUnder c g) G a cs p before after w := by
  have hdue : (S.direct final).registry.due? G a.element = S.registry.due? G a.element :=
    Registry.due?_withoutHandlers plain G
  cases due : S.registry.due? G a.element with
  | none =>
    refine depicts.meets_keep ready stands due ?_
    rintro cs' w₁ w' out hpass _ ⟨rfl, h⟩
    refine ⟨rfl, ?_⟩
    rw [renamed_cons, same, renamed_nil, grow_keep (hdue.trans due), ← state_of_ofCell hpass, h,
      grow_nil, List.map_cons, Outline.map_node, List.map_nil]
  | some x =>
    obtain ⟨name, hname, hfind, inactive⟩ := Registry.due?_eq_some_iff.mp due
    obtain ⟨text, body⟩ := Snippet.isTemplate_iff.mp (plain name x hname hfind)
    have admitted : (S.delegated final).admits (G.insert x) := by
      intro s hs
      rw [Guard.contains_insert, Bool.or_eq_true, beq_iff_eq] at hs
      rcases hs with rfl | hs
      · exact plain name s hname hfind
      · exact ready.admitted s hs
    obtain ⟨state, hstate, hlookup⟩ := depicts.lookup name w
    rw [show S.rules.registry.find? name = some x from hfind] at hlookup
    cases hstate
    have sound₁ := Edit.sound_apply (e := .report (.expanding name text)) ready.sound rfl
    rcases depicts.exists_grown (w := { w with store := _ }) hfind body sound₁ with
      ⟨tree, w₂, us, hparse, grown, _, hread⟩ | ⟨e, w₂, _, _, hread⟩
    · exact Or.inr (Account.reaches_replace (fun g => walksT x a.element due g us) walks ready stands
        hname inactive body hlookup hparse (grown.of_earlier (.report w.store _))
        (lifts_delegated admitted same (hdue.trans due) body (read_of_changes hread)))
    · exact absurd hread (not_reads_error text e)

/-- A node is met as the account says, however many handlers its name leads through. By induction on
the way to the last name; no handler is ever under expansion. -/
theorem meets_delegating (delegates : ∀ k h n, (c k).handle h n = delegate (target h) n)
    (leads : ∀ name, S.registry.Delegates target name (final name)) {name last : String}
    (way : S.registry.Delegates target name last) (hname : a.element.name = some name)
    (ready : (S.delegated final).Ready g G w.store) (stands : w.store.Stands a cs p before after) :
    (S.delegated final).Meets (visitUnder c g) G a cs p before after w := by
  induction way generalizing a w with
  | @here name plain =>
    have hfinal : final name = name := (leads name).unique (.here plain)
    refine meets_plain depicts walksT walks ready stands ?_ fun other s hother hfind => ?_
    · rw [Element.rename, hname, Option.map_some, hfinal, ← hname]
    · cases Option.some.inj (hname.symm.trans hother)
      exact plain s hfind
  | @step name last s h found body rest ih =>
    have hfinal : final name = last := (leads name).unique (.step found body rest)
    have hfinal' : final (target h) = last := (leads (target h)).unique rest
    have hrename : a.element.rename final =
        Element.rename final { a.element with name := some (target h) } := by
      simp only [Element.rename, hname, Option.map_some, hfinal, hfinal']
    have inactive : (w.store.guardAt g).contains s = false := by
      rw [ready.guard, ← Bool.not_eq_true]
      exact fun hs => Snippet.body_ne_handler (ready.admitted s hs) body
    have hname' : (w.store.data a.id).name = some name :=
      (congrArg Element.name stands.element).trans hname
    have sound := World.sound_handed ready.sound a.id name (target h)
    have redrawn := World.redrawn_handed stands.mem name (target h)
    rw [stands.element] at redrawn
    have frame := redrawn.frame stands.linked
    have meets := ih rfl (ready.of_frame frame sound)
      (stands.redraw frame sound.linked redrawn.element)
    refine meets.of_redrawn frame
      (fun r => ends_under_delegating depicts delegates hname' found body inactive) ?_
    rintro ts' w' out ⟨hout, hgrow⟩
    rw [renamed_cons, ← hrename] at hgrow
    exact ⟨hout, by rwa [renamed_cons]⟩

end

theorem follows_delegated {c : Nat → Surroundings σ} (depicts : S.rules.Depicts c)
    (delegates : ∀ k h n, (c k).handle h n = delegate (target h) n)
    (leads : ∀ name, S.registry.Delegates target name (final name)) :
    (S.delegated final).Follows S.registry c := by
  intro G g w a cs p before after walksT walks ready stands
  cases hname : a.element.name with
  | none =>
    refine meets_plain depicts walksT walks ready stands ?_ fun name s hsome _ => ?_
    · rw [Element.rename, hname, Option.map_none, ← hname]
    · cases hname.symm.trans hsome
  | some name =>
    exact meets_delegating depicts walksT walks delegates leads (leads name) hname ready stands

end Scheme

/-- Handlers that give their nodes another name and go on with them cannot be told from names put in
place beforehand, in the tree and in the trees of templates, with no handlers at all. Wherever the
handlers are met, the results are the same: names, data, order and nesting. The reader may keep a
state, and is left in the same one. -/
theorem resolveBelow_delegates (S : Scheme σ) (target : HandlerId → String)
    (final : String → String) (leads : ∀ name, S.registry.Delegates target name (final name))
    (c c' : Surroundings σ) (depicts : S.rules.Depicts fun _ => c)
    (delegates : ∀ h n, c.handle h n = Script.delegate (target h) n)
    (depicts' : (S.direct final).rules.Depicts fun _ => c') (w w' : World σ) (sound : w.store.Sound)
    (sound' : w'.store.Sound) (state : w'.state = w.state) (root root' : NodeId)
    (placed : (w'.store.document root').children =
      (w.store.document root).children.map (Outline.map (Element.rename final))) :
    ∃ k v v', (∀ limits : Limits, k ≤ limits.depth → k ≤ limits.steps →
        (resolveBelow (pure c) limits root).run w = (.done (), v) ∧
        (resolveBelow (pure c') limits root').run w' = (.done (), v')) ∧
      (v.store.document root).children = (v'.store.document root').children ∧
      v.state = v'.state := by
  have linked := sound.linked
  have follows := Scheme.follows_delegated depicts (fun _ => delegates) leads
  obtain ⟨out, v, ts, hends, soundv, reached⟩ := follows.resolveBelow_reaches
    ⟨sound, fun _ _ => trivial⟩ linked.shows_forest (linked.children_eq_forest (n := root))
  obtain ⟨rfl, hgrow⟩ := reached.yields
  obtain ⟨v', _, hends', _, _, hgrow'⟩ :=
    Scheme.resolveBelow_reaches S.registry.ofTemplates_withoutHandlers depicts' sound' root'
  have hforest : v.store.forest root = ts :=
    reached.shown.forest_eq soundv.linked (by simpa using reached.children)
  have hrenamed : Scheme.renamed final (w.store.forest root) =
      (w'.store.document root').children := by
    rw [placed, linked.children_document, Outline.map_map_forest]
    rfl
  rw [hrenamed, ← state, hgrow', ← hforest, ← soundv.linked.children_document] at hgrow
  have hsame := Prod.mk.inj hgrow
  obtain ⟨k, hk⟩ := hends.both hends'
  exact ⟨k, v, v', hk, hsame.1.symm, hsame.2.symm⟩

/-- The handler of `quote` goes on with `q`, and that of `q` with `bq`. The template of `bq` is a
`blockquote` with a node `q` below it. The reader counts how often it reads. -/
def Scheme.quoting : Scheme Nat where
  registry := ⟨((Keyed.insert ∅ "bq" { serial := 0, body := .template "blockquote>q" }).insert "q"
    { serial := 1, body := .handler ⟨0⟩ }).insert "quote" { serial := 2, body := .handler ⟨1⟩ }⟩
  read _ count :=
    (.node {} [.node { name := some "blockquote" } [.node { name := some "q" } []]], count + 1)

/-- Where the handlers of `Scheme.quoting` go on. -/
def Scheme.quotingTarget (h : HandlerId) : String := if h.index = 0 then "bq" else "q"

/-- Where names lead to in `Scheme.quoting`. -/
def Scheme.quotingFinal (name : String) : String :=
  if name = "q" ∨ name = "quote" then "bq" else name

theorem Scheme.delegates_quoting (name : String) :
    quoting.registry.Delegates quotingTarget name (quotingFinal name) := by
  have hfind : ∀ name, quoting.registry.find? name =
      if name = "quote" then some { serial := 2, body := .handler ⟨1⟩ }
      else if name = "q" then some { serial := 1, body := .handler ⟨0⟩ }
      else if name = "bq" then some { serial := 0, body := .template "blockquote>q" } else none := by
    intro name
    simp only [quoting, Registry.find?, Keyed.find?_insert, Keyed.find?_empty]
  have hbq : quoting.registry.Delegates quotingTarget "bq" "bq" := by
    refine .here fun s hs => ?_
    rw [hfind] at hs
    cases hs
    rfl
  have hq : quoting.registry.Delegates quotingTarget "q" "bq" := .step (hfind "q") rfl hbq
  have hquote : quoting.registry.Delegates quotingTarget "quote" "bq" :=
    .step (hfind "quote") rfl hq
  unfold quotingFinal
  split
  next h =>
    rcases h with rfl | rfl
    · exact hq
    · exact hquote
  next h =>
    rw [not_or] at h
    refine .here fun s hs => ?_
    rw [hfind, if_neg h.2, if_neg h.1] at hs
    split at hs
    next =>
      cases hs
      rfl
    next => cases hs

/-- In `quote>(p+q)` handlers are met in the tree, one after the other, and in the template, below a
node `bq` that is under expansion. -/
theorem resolveBelow_delegates_quoting :
    ∃ (c c' : Surroundings Nat) (w w' : World Nat) (root root' : NodeId),
      (∀ name, Scheme.quoting.registry.Delegates Scheme.quotingTarget name
        (Scheme.quotingFinal name)) ∧
      (Scheme.quoting.rules.Depicts fun _ => c) ∧
      (∀ h n, c.handle h n = Script.delegate (Scheme.quotingTarget h) n) ∧
      ((Scheme.quoting.direct Scheme.quotingFinal).rules.Depicts fun _ => c') ∧ w.store.Sound ∧
      w'.store.Sound ∧ w'.state = w.state ∧
      (w.store.document root).children = [.node { name := some "quote", classes := ["x"] }
        [.node { name := some "p" } [], .node { name := some "q" } []]] ∧
      (w'.store.document root').children =
        (w.store.document root).children.map (Outline.map (Element.rename Scheme.quotingFinal)) ∧
      ∃ k v v', (∀ limits : Limits, k ≤ limits.depth → k ≤ limits.steps →
          (resolveBelow (pure c) limits root).run w = (.done (), v) ∧
          (resolveBelow (pure c') limits root').run w' = (.done (), v')) ∧
        (v.store.document root).children = (v'.store.document root').children ∧
        v.state = v'.state := by
  let tree : Outline Element := .node {} [.node { name := some "quote", classes := ["x"] }
    [.node { name := some "p" } [], .node { name := some "q" } []]]
  obtain ⟨w, root, sound, _, hdocument⟩ := exists_world tree 0
  obtain ⟨w', root', sound', _, hdocument'⟩ :=
    exists_world (tree.map (Element.rename Scheme.quotingFinal)) 0
  let c : Surroundings Nat :=
    { Scheme.quoting.surroundings with handle := fun h => Script.delegate (Scheme.quotingTarget h) }
  have describes : Scheme.quoting.rules.Describes Scheme.quoting.surroundings :=
    Scheme.surroundings_describes _ fun _ _ => rfl
  have depicts : Scheme.quoting.rules.Depicts fun _ => c :=
    ⟨describes.depicts.lookup, describes.depicts.parse⟩
  have depicts' : (Scheme.quoting.direct Scheme.quotingFinal).rules.Depicts fun _ =>
      (Scheme.quoting.direct Scheme.quotingFinal).surroundings :=
    (Scheme.surroundings_describes _ fun _ _ => rfl).depicts
  have placed : (w'.store.document root').children =
      (w.store.document root).children.map (Outline.map (Element.rename Scheme.quotingFinal)) := by
    rw [hdocument, hdocument']
    rfl
  exact ⟨c, _, w, { w' with state := w.state }, root, root', Scheme.delegates_quoting, depicts,
    fun _ _ => rfl, depicts', sound, sound', rfl, by rw [hdocument]; rfl, placed,
    resolveBelow_delegates _ _ _ Scheme.delegates_quoting c _ depicts (fun _ _ => rfl) depicts' w
      { w' with state := w.state } sound sound' rfl root root' placed⟩

end SnippetTree
