import SnippetTree.Snippet

namespace SnippetTree

/-- The snippets under expansion, each at most once, the last inserted first. -/
structure Guard where
  active : List Snippet := []
  deriving DecidableEq, Inhabited

namespace Guard

def contains (g : Guard) (s : Snippet) : Bool := g.active.contains s

def size (g : Guard) : Nat := g.active.length

/-- Inserting a member changes nothing. -/
def insert (g : Guard) (s : Snippet) : Guard :=
  if g.contains s then g else ⟨s :: g.active⟩

def erase (g : Guard) (s : Snippet) : Guard := ⟨g.active.erase s⟩

theorem erase_insert {g : Guard} {s : Snippet} (h : g.contains s = false) :
    (g.insert s).erase s = g := by
  simp [insert, erase, h]

theorem contains_insert (g : Guard) (s other : Snippet) :
    (g.insert s).contains other = (other == s || g.contains other) := by
  unfold insert
  split
  next h =>
    by_cases ho : other = s
    · simpa [ho] using h
    · simp [ho]
  next => simp [contains, Bool.beq_eq_decide_eq]

end Guard

end SnippetTree
