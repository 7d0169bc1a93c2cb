import SnippetTree.Element
import SnippetTree.Guard
import SnippetTree.Notice
import SnippetTree.Outline

namespace SnippetTree

structure NodeId where
  index : Nat
  deriving DecidableEq, Inhabited

structure AttributeId where
  index : Nat
  deriving DecidableEq, Inhabited

structure RepetitionId where
  index : Nat
  deriving DecidableEq, Inhabited

structure GuardId where
  index : Nat
  deriving DecidableEq, Inhabited

/-- What a node carries. An attribute is kept under the name that it had when it was stored. -/
structure Data where
  name : Option String := none
  value : Option String := none
  selfClosing : Bool := false
  repetition : Option RepetitionId := none
  classes : List String := []
  attributes : Keyed AttributeId := ∅
  deriving DecidableEq, Inhabited

/-- Where a node stands. -/
structure Links where
  parent : Option NodeId := none
  firstChild : Option NodeId := none
  lastChild : Option NodeId := none
  nextSibling : Option NodeId := none
  previousSibling : Option NodeId := none
  deriving DecidableEq, Inhabited

structure Node where
  data : Data := {}
  links : Links := {}
  deriving DecidableEq, Inhabited

/-- Nodes, the records that they carry, guards and notices. A record may be carried by several nodes;
an identity is never used twice. -/
structure Store where
  nodes : Array Node := #[]
  attributes : Array Attribute := #[]
  repetitions : Array Repetition := #[]
  guards : Array Guard := #[]
  notices : Array Notice := #[]
  deriving DecidableEq, Inhabited

namespace Store

/-- A node reads as a detached node without data before it is made. -/
def node (s : Store) (n : NodeId) : Node := s.nodes.getD n.index {}

def data (s : Store) (n : NodeId) : Data := (s.node n).data

def links (s : Store) (n : NodeId) : Links := (s.node n).links

def attributeAt (s : Store) (a : AttributeId) : Attribute := s.attributes.getD a.index default

def repetitionAt (s : Store) (r : RepetitionId) : Repetition := s.repetitions.getD r.index default

def guardAt (s : Store) (g : GuardId) : Guard := s.guards.getD g.index default

def freshNode (s : Store) : NodeId := ⟨s.nodes.size⟩

def freshAttribute (s : Store) : AttributeId := ⟨s.attributes.size⟩

def freshRepetition (s : Store) : RepetitionId := ⟨s.repetitions.size⟩

def freshGuard (s : Store) : GuardId := ⟨s.guards.size⟩

instance : Membership NodeId Store := ⟨fun s n => n.index < s.nodes.size⟩

instance (s : Store) (n : NodeId) : Decidable (n ∈ s) :=
  inferInstanceAs (Decidable (n.index < s.nodes.size))

def hasAttribute (s : Store) (a : AttributeId) : Bool := a.index < s.attributes.size

def hasRepetition (s : Store) (r : RepetitionId) : Bool := r.index < s.repetitions.size

theorem mem_iff {s : Store} {n : NodeId} : n ∈ s ↔ n.index < s.nodes.size := Iff.rfl

def modifyNode (s : Store) (n : NodeId) (f : Node → Node) : Store :=
  { s with nodes := s.nodes.modify n.index f }

def modifyData (s : Store) (n : NodeId) (f : Data → Data) : Store :=
  s.modifyNode n fun node => { node with data := f node.data }

def modifyLinks (s : Store) (n : NodeId) (f : Links → Links) : Store :=
  s.modifyNode n fun node => { node with links := f node.links }

theorem node_modifyNode (s : Store) (n m : NodeId) (f : Node → Node) :
    (s.modifyNode n f).node m = if m = n ∧ n ∈ s then f (s.node n) else s.node m := by
  obtain ⟨i⟩ := n
  obtain ⟨j⟩ := m
  simp only [node, modifyNode, mem_iff, NodeId.mk.injEq, Array.getD_eq_getD_getElem?,
    Array.getElem?_modify]
  by_cases h : j = i
  · subst h
    by_cases hb : j < s.nodes.size <;> simp [hb]
  · simp [h, Ne.symm h]

@[simp] theorem mem_modifyNode {s : Store} {n m : NodeId} {f : Node → Node} :
    m ∈ s.modifyNode n f ↔ m ∈ s := by
  simp [mem_iff, modifyNode]

theorem data_modifyData (s : Store) (n m : NodeId) (f : Data → Data) :
    (s.modifyData n f).data m = if m = n ∧ n ∈ s then f (s.data n) else s.data m := by
  simp only [data, modifyData, node_modifyNode]
  split <;> rfl

theorem links_modifyLinks (s : Store) (n m : NodeId) (f : Links → Links) :
    (s.modifyLinks n f).links m = if m = n ∧ n ∈ s then f (s.links n) else s.links m := by
  simp only [links, modifyLinks, node_modifyNode]
  split <;> rfl

@[simp] theorem links_modifyData (s : Store) (n m : NodeId) (f : Data → Data) :
    (s.modifyData n f).links m = s.links m := by
  simp only [links, modifyData, node_modifyNode]
  split
  next h => rw [h.1]
  next => rfl

@[simp] theorem data_modifyLinks (s : Store) (n m : NodeId) (f : Links → Links) :
    (s.modifyLinks n f).data m = s.data m := by
  simp only [data, modifyLinks, node_modifyNode]
  split
  next h => rw [h.1]
  next => rfl

end Store

end SnippetTree
