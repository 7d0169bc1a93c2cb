import SnippetTree.Proofs.Avoiding
import SnippetTree.Proofs.Tidied

namespace SnippetTree

namespace Script

variable {σ : Type} {R : Region} {s : Store} {n target : NodeId}

end Script

/-- Given a node outside of the region, the handler avoids the region, if the resolution does that
it may ask to continue. -/
def Surroundings.HandlesOutside {σ : Type} (c : Surroundings σ) (R : Region) (s : Store)
    (h : HandlerId) : Prop :=
  ∀ (resolve : NodeId → Script σ Empty Unit),
    (∀ m, ¬R.nodes m → (resolve m).Avoids R s fun _ => True) →
      ∀ n, ¬R.nodes n → ((c.handle h n).serve resolve).Avoids R s fun _ => True

/-- Looking up names and reading templates avoids the region. What a template is read to is outside,
and so is what the handlers do that are found for names. -/
structure Surroundings.Avoids {σ : Type} (c : Surroundings σ) (R : Region) (s : Store) : Prop where
  lookup : ∀ name, (c.lookup name).Avoids R s fun answer =>
    ∀ x h, answer = some (.snippet x) → x.body = .handler h → c.HandlesOutside R s h
  parse : ∀ text, (c.parse text).Avoids R s fun tree => ¬R.nodes tree

namespace Resolution

open Script

variable {σ : Type} {c : Surroundings σ} {g : GuardId} {steps : Nat} {R : Region} {s : Store}
  {resolve : NodeId → Script σ Empty Unit} {n tree : NodeId}

end Resolution

section

open Script

variable {σ : Type} {R : Region} {s : Store} {n : NodeId}

end

namespace Operation

open Script

variable {σ : Type} {R : Region} {s : Store}

/-- What the operation is given is outside of the region: the nodes that it changes or moves, and
the records that it puts on them. -/
def Outside (R : Region) (s : Store) : Operation σ → Prop
  | makeNode _ _ _ repetition attributes _ =>
    (∀ r ∈ repetition, ¬R.records (.inr r)) ∧ ∀ a ∈ attributes, ¬R.records (.inl a)
  | setAttribute n a => ¬R.nodes n ∧ ¬R.records (.inl a)
  | replaceAttributes n attributes => ¬R.nodes n ∧ ∀ a ∈ attributes, ¬R.records (.inl a)
  | nameAttribute n _ _ | removeAttribute n _ | addClass n _ => ¬R.nodes n
  | copy _ _ => True
  | merge _ target | mergeClasses _ target | mergeAttributes _ target => ¬R.nodes target
  | resolveNode c _ n => ¬R.nodes n ∧ c.Avoids R s
  | resolveTree current _ root => ¬R.nodes root ∧ current.Avoids R s fun c => c.Avoids R s
  | other p => p.Avoids R s fun _ => True

end Operation

end SnippetTree
