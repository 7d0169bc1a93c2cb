import SnippetTree.Proofs.Drawing
import SnippetTree.Proofs.Forest
import SnippetTree.Registry

namespace SnippetTree

namespace Registry

variable {r : Registry} {g : Guard} {e : Element} {s : Snippet}

/-- The snippet to be followed for an element: the one of its name, unless that is under
expansion. -/
def due? (r : Registry) (g : Guard) (e : Element) : Option Snippet :=
  (e.name.bind r.find?).filter fun s => !g.contains s

theorem due?_eq_none_iff : r.due? g e = none ↔
    ∀ name s, e.name = some name → r.find? name = some s → g.contains s = true := by
  simp only [due?, Option.filter_eq_none_iff, Option.bind_eq_some_iff]
  constructor
  · intro h name s hn hs
    simpa using h s ⟨name, hn, hs⟩
  · rintro h s ⟨name, hn, hs⟩
    simpa using h name s hn hs

theorem due?_eq_some_iff : r.due? g e = some s ↔
    ∃ name, e.name = some name ∧ r.find? name = some s ∧ g.contains s = false := by
  simp only [due?, Option.filter_eq_some_iff, Option.bind_eq_some_iff, Bool.not_eq_true']
  constructor
  · rintro ⟨⟨name, hn, hs⟩, hg⟩
    exact ⟨name, hn, hs, hg⟩
  · rintro ⟨name, hn, hs, hg⟩
    exact ⟨⟨name, hn, hs⟩, hg⟩

theorem mem_values_of_find? {name : String} (h : r.find? name = some s) : s ∈ r.snippets.values := by
  obtain ⟨entry, hentry, rfl⟩ := Option.map_eq_some_iff.mp h
  exact List.mem_map_of_mem (List.mem_of_find?_eq_some hentry)

/-- The snippets that are not under expansion. -/
def idle (r : Registry) (g : Guard) : List Snippet :=
  r.snippets.values.filter fun s => !g.contains s

theorem length_idle_insert (due : r.due? g e = some s) :
    (r.idle (g.insert s)).length < (r.idle g).length := by
  obtain ⟨name, _, hfind, inactive⟩ := due?_eq_some_iff.mp due
  have hmem : s ∈ r.idle g :=
    List.mem_filter.mpr ⟨mem_values_of_find? hfind, by simp [inactive]⟩
  have hless : r.idle (g.insert s) = (r.idle g).filter (· ≠ s) := by
    rw [idle, idle, List.filter_filter]
    refine List.filter_congr fun t _ => ?_
    rw [Guard.contains_insert]
    by_cases ht : t = s <;> simp [ht]
  rw [hless]
  exact List.length_filter_lt_length_iff_exists.mpr ⟨s, hmem, by simp⟩

end Registry

/-- Snippets with what they stand for: a tree for each template, and for each handler what it makes
of the data of a node. -/
structure Plan where
  registry : Registry
  tree : String → Outline Element
  rewrite : HandlerId → Element → Element

namespace Plan

variable {plan : Plan} {g : Guard} {e : Element} {cs ts : List (Outline Element)} {s : Snippet}

theorem sizeOf_below_lt (e : Element) (cs ts : List (Outline Element)) :
    sizeOf cs < sizeOf (Outline.node e cs :: ts) := by
  rw [List.cons.sizeOf_spec, Outline.node.sizeOf_spec]
  omega

theorem sizeOf_beside_lt (t : Outline Element) (ts : List (Outline Element)) :
    sizeOf ts < sizeOf (t :: ts) := by
  rw [List.cons.sizeOf_spec]
  omega

/-- The expansion of a forest while the snippets of a guard are under expansion. A node without a
snippet to follow stays, with the expansion of its children. A template gives the trees below the
root of its own tree, expanded with its snippet under expansion; the node's children go below the
last leaf of these trees, or take their place, and the node's data go to each tree's top. -/
def expand (plan : Plan) (g : Guard) : List (Outline Element) → List (Outline Element)
  | [] => []
  | .node e cs :: ts =>
    (match _due : plan.registry.due? g e with
    | none => [.node e (expand plan g cs)]
    | some s =>
      match s.body with
      | .handler h => [.node (plan.rewrite h e) (expand plan g cs)]
      | .template text =>
        (Outline.graft (expand plan (g.insert s) (plan.tree text).children) (expand plan g cs)).map
          (Outline.relabel (·.merge e))) ++ expand plan g ts
termination_by ts => ((plan.registry.idle g).length, sizeOf ts)
decreasing_by
  · exact Prod.Lex.right _ (sizeOf_below_lt e cs ts)
  · exact Prod.Lex.right _ (sizeOf_below_lt e cs ts)
  · exact Prod.Lex.left _ _ (Registry.length_idle_insert _due)
  · exact Prod.Lex.right _ (sizeOf_below_lt e cs ts)
  · exact Prod.Lex.right _ (sizeOf_beside_lt (.node e cs) ts)

@[simp] theorem expand_nil : plan.expand g [] = [] := by
  rw [expand]

theorem expand_keep (due : plan.registry.due? g e = none) :
    plan.expand g (.node e cs :: ts) = .node e (plan.expand g cs) :: plan.expand g ts := by
  rw [expand]
  split
  next => rfl
  next s hs => cases due.symm.trans hs

theorem expand_handle {h : HandlerId} (due : plan.registry.due? g e = some s)
    (body : s.body = .handler h) : plan.expand g (.node e cs :: ts) =
      .node (plan.rewrite h e) (plan.expand g cs) :: plan.expand g ts := by
  rw [expand]
  split
  next hs => cases due.symm.trans hs
  next t ht =>
    cases Option.some.inj (due.symm.trans ht)
    rw [body]
    rfl

theorem expand_replace {text : String} (due : plan.registry.due? g e = some s)
    (body : s.body = .template text) : plan.expand g (.node e cs :: ts) =
      (Outline.graft (plan.expand (g.insert s) (plan.tree text).children) (plan.expand g cs)).map
        (Outline.relabel (·.merge e)) ++ plan.expand g ts := by
  rw [expand]
  split
  next hs => cases due.symm.trans hs
  next t ht =>
    cases Option.some.inj (due.symm.trans ht)
    rw [body]

end Plan

end SnippetTree
