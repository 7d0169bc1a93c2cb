import SnippetTree.Keyed
import SnippetTree.Snippet
import SnippetTree.Text.Blank

namespace SnippetTree

/-- Snippets by name, in the order in which the names were first bound. A key such as `a|b` binds
several names at once. -/
structure Registry where
  snippets : Keyed Snippet
  deriving DecidableEq, Inhabited

namespace Registry

def empty : Registry := ⟨∅⟩

instance : EmptyCollection Registry := ⟨empty⟩

def find? (r : Registry) (name : String) : Option Snippet := r.snippets.find? name

def contains (r : Registry) (name : String) : Bool := r.snippets.contains name

def names (r : Registry) : List String := r.snippets.keys

def size (r : Registry) : Nat := r.snippets.size

/-- What an addition did: the new registry, the bound snippet, and the names that were bound before,
once for each time they were replaced. -/
structure Addition where
  registry : Registry
  snippet : Snippet
  replaced : List String := []
  deriving DecidableEq

def Addition.bind (a : Addition) (name : String) : Addition where
  registry := ⟨a.registry.snippets.insert name a.snippet⟩
  snippet := a.snippet
  replaced := if a.registry.contains name then a.replaced ++ [name] else a.replaced

def namesOfKey (key : String) : List String := Text.pieces '|' key

/-- Binds every name of `key` to the snippet made from `source`, which takes its own name from the
first of them. -/
def add (r : Registry) (serial : Nat) (key : String) (source : Source) : Except Fault Addition :=
  match namesOfKey key with
  | [] => .error (.blankKey key)
  | first :: rest =>
    (source.toSnippet serial (some first)).map fun snippet =>
      (first :: rest).foldl Addition.bind { registry := r, snippet }

def share (r : Registry) (name target : String) : Except Fault (Registry × Snippet) :=
  match r.find? target with
  | some snippet => .ok (⟨r.snippets.insert name snippet⟩, snippet)
  | none => .error (.unknownSnippet target)

theorem find?_bind (a : Addition) (name other : String) :
    (a.bind name).registry.find? other =
      if other = name then some a.snippet else a.registry.find? other :=
  Keyed.find?_insert ..

theorem snippet_foldl_bind (names : List String) (a : Addition) :
    (names.foldl Addition.bind a).snippet = a.snippet := by
  induction names generalizing a with
  | nil => rfl
  | cons name names ih => exact ih (a.bind name)

theorem find?_foldl_bind (names : List String) (a : Addition) (other : String) :
    (names.foldl Addition.bind a).registry.find? other =
      if other ∈ names then some a.snippet else a.registry.find? other := by
  induction names generalizing a with
  | nil => simp
  | cons name names ih =>
    rw [List.foldl_cons, ih, find?_bind]
    by_cases h : other ∈ names <;> by_cases hn : other = name <;> simp [h, hn, Addition.bind]

end Registry

end SnippetTree
