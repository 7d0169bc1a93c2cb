import SnippetTree.Proofs.Endings
import SnippetTree.Proofs.Expansion
import SnippetTree.Proofs.Moving

namespace SnippetTree

open Cell

/-- A call of the surroundings; that of the reader with the tree that came of it. -/
inductive Call where
  | lookup (name : String)
  | parse (text : String) (tree : Outline Cell)
  | handle (h : HandlerId)

/-- A call with more than the surroundings see of it: the node that it is made for, or the snippets
under expansion while a tree that was read is resolved. -/
inductive Event where
  | lookup (n : NodeId) (name : String)
  | parse (active : Guard) (text : String) (tree : Outline Cell)
  | handle (n : NodeId) (h : HandlerId)

namespace Event

def call : Event → Call
  | lookup _ name => .lookup name
  | parse _ text tree => .parse text tree
  | handle _ h => .handle h

/-- The lookup made for a node, if it has a name. -/
def ofCell (a : Cell) : List Event := (a.element.name.map (lookup a.id)).toList

end Event

/-- What is known of the surroundings of a resolution. -/
structure Rules (σ : Type) where
  registry : Registry
  /-- The trees and the failures that may come of a template. -/
  reads : String → Except Fault (Outline Element) → Prop
  /-- What a handler makes of what a node shows. -/
  rewrite : HandlerId → Element → Element
  /-- The nodes that are not there at the start. -/
  fresh : NodeId → Prop
  /-- How a call may change the runner's state. -/
  changes : Call → σ → σ → Prop

/-- The second store is the first one with further nodes. -/
structure Store.Extends (s s' : Store) : Prop where
  held : ∀ m ∈ s, m ∈ s'
  guards : s.KeepsGuards s'
  links : ∀ m ∈ s, s'.links m = s.links m
  element : ∀ m ∈ s, s'.element m = s.element m

namespace Rules

variable {σ : Type} {ρ : Rules σ} {g : Guard} {ts us ts' us' : List (Outline Cell)}

/-- The call leads from the one world to the other; the nodes of a tree that is read are new. -/
structure Makes (ρ : Rules σ) (call : Call) (w w' : World σ) : Prop where
  state : ρ.changes call w.state w'.state
  held : ∀ m ∈ w.store, m ∈ w'.store
  born : ∀ text tree, call = .parse text tree →
    (ids [tree]).Nodup ∧ ∀ m ∈ ids [tree], m ∉ w.store ∧ m ∈ w'.store

/-- The calls lead from the one world to the other, where besides them no node is lost and the
runner's state does not change. -/
inductive Passes (ρ : Rules σ) : List Event → World σ → World σ → Prop
  | nil {w w' : World σ} (state : w'.state = w.state) (held : ∀ m ∈ w.store, m ∈ w'.store) :
      Passes ρ [] w w'
  | cons {e : Event} {es : List Event} {w₁ w₂ w₃ : World σ} (first : ρ.Makes e.call w₁ w₂)
      (rest : Passes ρ es w₂ w₃) : Passes ρ (e :: es) w₁ w₃

variable {call : Call} {e : Event} {es es' : List Event} {w₁ w₂ w₃ : World σ}

theorem Makes.of_earlier (h : ρ.Makes call w₂ w₃) (state : w₂.state = w₁.state)
    (held : ∀ m ∈ w₁.store, m ∈ w₂.store) : ρ.Makes call w₁ w₃ where
  state := state ▸ h.state
  held := fun m hm => h.held m (held m hm)
  born := by
    intro text tree hcall
    obtain ⟨hnodup, hnew⟩ := h.born text tree hcall
    exact ⟨hnodup, fun m hm => ⟨fun hm' => (hnew m hm).1 (held m hm'), (hnew m hm).2⟩⟩

theorem Passes.of_earlier (h : ρ.Passes es w₂ w₃) (state : w₂.state = w₁.state)
    (held : ∀ m ∈ w₁.store, m ∈ w₂.store) : ρ.Passes es w₁ w₃ := by
  cases h with
  | nil state' held' => exact .nil (state'.trans state) fun m hm => held' m (held m hm)
  | cons first rest => exact .cons (first.of_earlier state held) rest

theorem Passes.append (h : ρ.Passes es w₁ w₂) (h' : ρ.Passes es' w₂ w₃) :
    ρ.Passes (es ++ es') w₁ w₃ := by
  induction h with
  | nil state held => exact h'.of_earlier state held
  | cons first _ ih => exact .cons first (ih h')

theorem Passes.refl (w : World σ) : ρ.Passes [] w w := .nil rfl fun _ hm => hm

theorem Passes.of_changes {ρ' : Rules σ} (h : ρ.Passes es w₁ w₂)
    (changes : ∀ call a b, ρ.changes call a b → ρ'.changes call a b) : ρ'.Passes es w₁ w₂ := by
  induction h with
  | nil state held => exact .nil state held
  | cons first _ ih => exact .cons ⟨changes _ _ _ first.state, first.held, first.born⟩ ih

theorem Passes.one (h : ρ.Makes e.call w₁ w₂) : ρ.Passes [e] w₁ w₂ := .cons h (.refl w₂)

/-- The surroundings do what the rules say: lookups answer from the registry; a template is read to
a new tree, which leaves the rest of the store as it was; a handler rewrites what its node shows and
nothing else. -/
structure Describes (ρ : Rules σ) (c : Surroundings σ) : Prop where
  lookup : ∀ name (w : World σ), ∃ state, ρ.changes (.lookup name) w.state state ∧
    (c.lookup name).run w = (.done ((ρ.registry.find? name).map .snippet), { w with state })
  parse : ∀ name s text, ρ.registry.find? name = some s → s.body = .template text →
    ∀ w : World σ, w.store.Sound →
      (∃ tree w', (c.parse text).run w = (.done tree, w') ∧ w.store.Extends w'.store ∧
        tree ∉ w.store ∧ tree ∈ w'.store ∧ ρ.reads text (.ok (w'.store.document tree)) ∧
        ρ.changes (.parse text (w'.store.cells tree)) w.state w'.state) ∨
      ∃ e w', (c.parse text).run w = (.failed e, w') ∧ w.store.Extends w'.store ∧
        ρ.reads text (.error e)
  handle : ∀ name s h, ρ.registry.find? name = some s → s.body = .handler h →
    ∀ (w : World σ) n, w.store.Sound → n ∈ w.store →
      ∃ w', (∀ resolve, ((c.handle h n).serve resolve).run w = (.done (), w')) ∧
        w.store.Redrawn w'.store n (ρ.rewrite h (w.store.element n)) ∧
        ρ.changes (.handle h) w.state w'.state

theorem Describes.narrow {c : Surroundings σ} (h : ρ.Describes c)
    {reads : String → Except Fault (Outline Element) → Prop}
    (ok : ∀ name s text, ρ.registry.find? name = some s → s.body = .template text →
      ∀ (w : World σ) tree w', w.store.Sound → (c.parse text).run w = (.done tree, w') →
        reads text (.ok (w'.store.document tree)))
    (error : ∀ text e, ρ.reads text (.error e) → reads text (.error e)) :
    ({ ρ with reads } : Rules σ).Describes c where
  lookup := h.lookup
  parse := by
    intro name s text hfind body w sound
    rcases h.parse name s text hfind body w sound with
      ⟨tree, w', hrun, extends', hnew, held, _, hchange⟩ | ⟨e, w', hrun, extends', hread⟩
    · exact Or.inl ⟨tree, w', hrun, extends', hnew, held,
        ok name s text hfind body w tree w' sound hrun, hchange⟩
    · exact Or.inr ⟨e, w', hrun, extends', error text e hread⟩
  handle := h.handle

/-- The forest is resolved to another one with these calls, while the snippets of the guard are
under expansion. -/
inductive Settles (ρ : Rules σ) :
    Guard → List (Outline Cell) → List Event → List (Outline Cell) → Prop
  | nil {g : Guard} : Settles ρ g [] [] []
  | keep {g : Guard} {a : Cell} {cs cs' ts ts' : List (Outline Cell)} {below rest : List Event}
      (due : ρ.registry.due? g a.element = none) (own : Settles ρ g cs below cs')
      (others : Settles ρ g ts rest ts') :
      Settles ρ g (.node a cs :: ts) (Event.ofCell a ++ below ++ rest) (.node a cs' :: ts')
  | handle {g : Guard} {a : Cell} {cs cs' ts ts' : List (Outline Cell)} {below rest : List Event}
      {s : Snippet} {h : HandlerId} (due : ρ.registry.due? g a.element = some s)
      (body : s.body = .handler h) (own : Settles ρ g cs below cs') (others : Settles ρ g ts rest ts') :
      Settles ρ g (.node a cs :: ts) (Event.ofCell a ++ [.handle a.id h] ++ below ++ rest)
        (.node { a with element := ρ.rewrite h a.element } cs' :: ts')
  | replace {g : Guard} {a : Cell} {cs cs' ts ts' us us' : List (Outline Cell)}
      {inner below rest : List Event} {s : Snippet} {text : String} {top : Cell}
      (due : ρ.registry.due? g a.element = some s) (body : s.body = .template text)
      (read : ρ.reads text (.ok (.node top.element (us.map (Outline.map Cell.element)))))
      (fresh : ∀ n ∈ ids us, ρ.fresh n) (template : Settles ρ (g.insert s) us inner us')
      (own : Settles ρ g cs below cs') (others : Settles ρ g ts rest ts') :
      Settles ρ g (.node a cs :: ts)
        (Event.ofCell a ++ [.parse (g.insert s) text (.node top us)] ++ inner ++ below ++ rest)
        (giveAll a.element (Outline.graft us' cs') ++ ts')

/-- The resolution of the forest fails, and leaves the other forest behind: what comes before the
failure is resolved, and what comes after it is as it was. -/
inductive Stops (ρ : Rules σ) : Guard → List (Outline Cell) → List (Outline Cell) → Fault → Prop
  | skip {g : Guard} {t : Outline Cell} {us ts ts' : List (Outline Cell)} {es : List Event}
      {fault : Fault} (first : Settles ρ g [t] es us) (others : Stops ρ g ts ts' fault) :
      Stops ρ g (t :: ts) (us ++ ts') fault
  | keep {g : Guard} {a : Cell} {cs cs' ts : List (Outline Cell)} {fault : Fault}
      (due : ρ.registry.due? g a.element = none) (own : Stops ρ g cs cs' fault) :
      Stops ρ g (.node a cs :: ts) (.node a cs' :: ts) fault
  | handle {g : Guard} {a : Cell} {cs cs' ts : List (Outline Cell)} {s : Snippet} {h : HandlerId}
      {fault : Fault} (due : ρ.registry.due? g a.element = some s) (body : s.body = .handler h)
      (own : Stops ρ g cs cs' fault) :
      Stops ρ g (.node a cs :: ts) (.node { a with element := ρ.rewrite h a.element } cs' :: ts)
        fault
  | unread {g : Guard} {a : Cell} {cs ts : List (Outline Cell)} {s : Snippet} {text : String}
      {e : Fault} (due : ρ.registry.due? g a.element = some s) (body : s.body = .template text)
      (read : ρ.reads text (.error e)) :
      Stops ρ g (.node a cs :: ts) (.node a cs :: ts)
        (.because (.unparsable text e.message a.element.name) e)
  | template {g : Guard} {a : Cell} {cs ts us us' : List (Outline Cell)} {s : Snippet}
      {text : String} {e : Element} {fault : Fault} (due : ρ.registry.due? g a.element = some s)
      (body : s.body = .template text)
      (read : ρ.reads text (.ok (.node e (us.map (Outline.map Cell.element)))))
      (inner : Stops ρ (g.insert s) us us' fault) :
      Stops ρ g (.node a cs :: ts) (.node a cs :: ts) fault
  | own {g : Guard} {a : Cell} {cs cs' ts us us' : List (Outline Cell)} {inner : List Event}
      {s : Snippet} {text : String} {e : Element} {fault : Fault}
      (due : ρ.registry.due? g a.element = some s) (body : s.body = .template text)
      (read : ρ.reads text (.ok (.node e (us.map (Outline.map Cell.element)))))
      (template : Settles ρ (g.insert s) us inner us') (own : Stops ρ g cs cs' fault) :
      Stops ρ g (.node a cs :: ts) (.node a cs' :: ts) fault

theorem Settles.append (h : ρ.Settles g ts es ts') (h' : ρ.Settles g us es' us') :
    ρ.Settles g (ts ++ us) (es ++ es') (ts' ++ us') := by
  induction h with
  | nil => exact h'
  | keep due own _ _ ih =>
    have hs := Settles.keep due own (ih h')
    simpa only [List.append_assoc, List.cons_append] using hs
  | handle due body own _ _ ih =>
    have hs := Settles.handle due body own (ih h')
    simpa only [List.append_assoc, List.cons_append] using hs
  | replace due body read fresh template own _ _ _ ih =>
    have hs := Settles.replace due body read fresh template own (ih h')
    simpa only [List.append_assoc, List.cons_append] using hs

theorem Stops.append {fault : Fault} (h : ρ.Stops g ts ts' fault) (us : List (Outline Cell)) :
    ρ.Stops g (ts ++ us) (ts' ++ us) fault := by
  induction h with
  | skip first _ ih =>
    rw [List.append_assoc]
    exact .skip first ih
  | keep due own _ => exact .keep due own
  | handle due body own _ => exact .handle due body own
  | unread due body read => exact .unread due body read
  | template due body read inner _ => exact .template due body read inner
  | own due body read template own _ => exact .own due body read template own

theorem not_stops_of_reads {fault : Fault} (reads : ∀ text e, ¬ρ.reads text (.error e)) :
    ¬ρ.Stops g ts ts' fault := by
  intro h
  induction h with
  | skip _ _ ih => exact ih
  | keep _ _ ih => exact ih
  | handle _ _ _ ih => exact ih
  | unread _ _ read => exact absurd read (reads _ _)
  | template _ _ _ _ ih => exact ih
  | own _ _ _ _ _ ih => exact ih

/-- How a resolution that ends with `out` changes a forest. -/
inductive Yields (ρ : Rules σ) (g : Guard) (ts ts' : List (Outline Cell)) (w w' : World σ) :
    Outcome Unit → Prop
  | done {es : List Event} (settles : ρ.Settles g ts es ts') (passes : ρ.Passes es w w') :
      Yields ρ g ts ts' w w' (.done ())
  | failed {fault : Fault} (stops : ρ.Stops g ts ts' fault) : Yields ρ g ts ts' w w' (.failed fault)

theorem Yields.around {w w' : World σ} {out : Outcome Unit} (h : ρ.Yields g ts ts' w₁ w₂ out)
    (before : ρ.Passes [] w w₁) (after : ρ.Passes [] w₂ w') : ρ.Yields g ts ts' w w' out := by
  cases h with
  | done settles passes =>
    have hpass := (before.append passes).append after
    rw [List.nil_append, List.append_nil] at hpass
    exact .done settles hpass
  | failed stops => exact .failed stops

end Rules

end SnippetTree
