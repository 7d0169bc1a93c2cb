namespace SnippetTree

/-- A label with the outlines below it, in order. -/
inductive Outline (α : Type) where
  | node (label : α) (children : List (Outline α))

namespace Outline

variable {α β : Type}

def label : Outline α → α
  | node a _ => a

def children : Outline α → List (Outline α)
  | node _ cs => cs

mutual

def decEq [DecidableEq α] : (s t : Outline α) → Decidable (s = t)
  | node a cs, node b ds =>
    if h : a = b then
      match decEqAll cs ds with
      | isTrue hc => isTrue (by rw [h, hc])
      | isFalse hc => isFalse fun he => hc (by injection he)
    else isFalse fun he => h (by injection he)

def decEqAll [DecidableEq α] : (ss ts : List (Outline α)) → Decidable (ss = ts)
  | [], [] => isTrue rfl
  | [], _ :: _ | _ :: _, [] => isFalse nofun
  | s :: ss, t :: ts =>
    match decEq s t with
    | isTrue h =>
      match decEqAll ss ts with
      | isTrue hs => isTrue (by rw [h, hs])
      | isFalse hs => isFalse fun he => hs (by injection he)
    | isFalse h => isFalse fun he => h (by injection he)

end

instance [DecidableEq α] : DecidableEq (Outline α) := decEq

mutual

def map (f : α → β) : Outline α → Outline β
  | node a cs => node (f a) (mapAll f cs)

def mapAll (f : α → β) : List (Outline α) → List (Outline β)
  | [] => []
  | t :: ts => map f t :: mapAll f ts

end

mutual

/-- Every label with its depth below `depth`, a label before those below it. -/
def rows (depth : Nat) : Outline α → List (Nat × α)
  | node a cs => (depth, a) :: rowsAll (depth + 1) cs

def rowsAll (depth : Nat) : List (Outline α) → List (Nat × α)
  | [] => []
  | t :: ts => rows depth t ++ rowsAll depth ts

end

/-- The labels in document order, each before those below it. -/
def preorder (t : Outline α) : List α := (t.rows 0).map Prod.snd

theorem mapAll_eq (f : α → β) (ts : List (Outline α)) : mapAll f ts = ts.map (map f) := by
  induction ts with
  | nil => rfl
  | cons t ts ih => rw [mapAll, ih, List.map_cons]

end Outline

end SnippetTree
