import SnippetTree.Proofs.Drawing
import Mathlib.Data.List.Find

namespace SnippetTree

namespace Keyed

def ByName (m : Keyed Attribute) : Prop := ∀ entry ∈ m.entries, entry.1 = entry.2.name

variable {m : Keyed Attribute} {a : Attribute} {key : String}

theorem byName_empty : ByName ∅ := nofun

theorem ByName.insert (h : m.ByName) (name : a.name = key) : (m.insert key a).ByName := by
  intro entry hentry
  rcases mem_entries_insert hentry with rfl | hentry
  · exact name.symm
  · exact h entry hentry

theorem ByName.map_name (h : m.ByName) : m.values.map Attribute.name = m.keys := by
  rw [values, keys, List.map_map]
  exact List.map_congr_left fun entry hentry => (h entry hentry).symm

theorem ByName.find?_values (h : m.ByName) (key : String) :
    m.values.find? (·.name = key) = m.find? key := by
  rw [values, Keyed.find?, List.find?_map]
  refine congrArg _ (List.find?_congr fun entry hentry => ?_)
  rw [Function.comp_apply, h entry hentry]

theorem ByName.name_of_find? (h : m.ByName) (ha : m.find? key = some a) : a.name = key := by
  rw [← h.find?_values] at ha
  simpa using List.find?_some ha

end Keyed

namespace Attribute

variable {m : Keyed Attribute} {a : Attribute} {key : String} {base given records : List Attribute}

theorem find?_cons_name (a : Attribute) (as : List Attribute) :
    (a :: as).find? (·.name = key) = if key = a.name then some a else as.find? (·.name = key) := by
  by_cases h : key = a.name
  · rw [if_pos h, List.find?_cons_of_pos (by simp [h])]
  · rw [if_neg h, List.find?_cons_of_neg (by simpa using Ne.symm h)]

theorem find?_eq_none_of_nodup {as : List Attribute} (nodup : ((a :: as).map name).Nodup) :
    as.find? (·.name = a.name) = none := by
  rw [List.find?_eq_none]
  intro b hb he
  have hname : b.name = a.name := by simpa using he
  exact (List.nodup_cons.mp nodup).1 (hname ▸ List.mem_map_of_mem hb)

theorem byName_foldl_insert (h : m.ByName) (as : List Attribute) :
    (as.foldl (fun named a => named.insert a.name a) m).ByName := by
  induction as generalizing m with
  | nil => exact h
  | cons a as ih => exact ih (h.insert rfl)

theorem find?_foldl_insert (as : List Attribute) (nodup : (as.map name).Nodup) :
    (as.foldl (fun named a => named.insert a.name a) m).find? key =
      (as.find? (·.name = key)).or (m.find? key) := by
  induction as generalizing m with
  | nil => rfl
  | cons a as ih =>
    rw [List.foldl_cons, ih (List.nodup_cons.mp nodup).2, Keyed.find?_insert,
      find?_cons_name]
    by_cases h : key = a.name
    · rw [if_pos h, if_pos h, h, find?_eq_none_of_nodup nodup, Option.none_or, Option.some_or]
    · rw [if_neg h, if_neg h]

theorem find?_byName (nodup : (base.map name).Nodup) :
    (byName base).find? key = base.find? (·.name = key) := by
  rw [byName, find?_foldl_insert base nodup, Keyed.find?_empty, Option.or_none]

theorem byName_byName (as : List Attribute) : (byName as).ByName :=
  byName_foldl_insert Keyed.byName_empty as

/-- One attribute given over another one of its name, if there is one. -/
def laidOver (a : Attribute) (old : Option Attribute) : Attribute :=
  old.elim a fun old => { old with value := a.value, implied := false }

theorem give_eq (h : m.ByName) : give m a = m.insert a.name (a.laidOver (m.find? a.name)) ∧
    (a.laidOver (m.find? a.name)).name = a.name := by
  unfold give laidOver
  cases hm : m.find? a.name with
  | none => exact ⟨rfl, rfl⟩
  | some old =>
    have hname : old.name = a.name := h.name_of_find? hm
    exact ⟨rfl, hname⟩

theorem byName_foldl_give (h : m.ByName) (given : List Attribute) :
    (given.foldl give m).ByName := by
  induction given generalizing m with
  | nil => exact h
  | cons a given ih =>
    obtain ⟨hgive, hname⟩ := give_eq (a := a) h
    rw [List.foldl_cons, hgive]
    exact ih (h.insert hname)

theorem find?_foldl_give (h : m.ByName) (nodup : (given.map name).Nodup) :
    (given.foldl give m).find? key =
      ((given.find? (·.name = key)).map (laidOver · (m.find? key))).or (m.find? key) := by
  induction given generalizing m with
  | nil => rfl
  | cons a given ih =>
    obtain ⟨hgive, hname⟩ := give_eq (a := a) h
    rw [List.foldl_cons, hgive, ih (h.insert hname) (List.nodup_cons.mp nodup).2,
      Keyed.find?_insert, find?_cons_name]
    by_cases hk : key = a.name
    · rw [if_pos hk, if_pos hk, hk, find?_eq_none_of_nodup nodup]
      rfl
    · rw [if_neg hk, if_neg hk]

theorem find?_layer (nodup : (base.map name).Nodup) (nodup' : (given.map name).Nodup) :
    (layer base given).find? (·.name = key) =
      ((given.find? (·.name = key)).map (laidOver · (base.find? (·.name = key)))).or
        (base.find? (·.name = key)) := by
  rw [layer, (byName_foldl_give (byName_byName base) given).find?_values,
    find?_foldl_give (byName_byName base) nodup', find?_byName nodup]

theorem nodup_layer (base given : List Attribute) : ((layer base given).map name).Nodup := by
  rw [layer, (byName_foldl_give (byName_byName base) given).map_name]
  exact (given.foldl give (byName base)).nodup

end Attribute

namespace Element

variable {e given : Element} {key : String} {gs : List Element}

def attribute? (e : Element) (key : String) : Option Attribute :=
  e.attributes.find? (·.name = key)

/-- The names of the attributes are all different, and none of them lists class names. -/
structure WellNamed (e : Element) : Prop where
  nodup : (e.attributes.map Attribute.name).Nodup
  noClass : Attribute.className ∉ e.attributes.map Attribute.name

theorem WellNamed.attribute?_eq_some_iff (h : e.WellNamed) {a : Attribute} :
    e.attribute? key = some a ↔ a ∈ e.attributes ∧ a.name = key := by
  constructor
  · intro ha
    exact ⟨List.mem_of_find?_eq_some ha, by simpa using List.find?_some ha⟩
  · rintro ⟨ha, rfl⟩
    have nodup := h.nodup
    obtain ⟨before, after, split⟩ := List.append_of_mem ha
    rw [attribute?, split, List.find?_append]
    rw [split, List.map_append, List.map_cons, List.nodup_append] at nodup
    have hbefore : before.find? (·.name = a.name) = none := by
      rw [List.find?_eq_none]
      intro b hb he
      have hname : b.name = a.name := by simpa using he
      exact nodup.2.2 b.name (List.mem_map_of_mem hb) a.name (by simp) hname
    rw [hbefore, Option.none_or, List.find?_cons_of_pos (by simp)]

theorem WellNamed.attribute?_className (h : e.WellNamed) :
    e.attribute? Attribute.className = none := by
  rw [attribute?, List.find?_eq_none]
  intro a ha he
  have hname : a.name = Attribute.className := by simpa using he
  exact h.noClass (hname ▸ List.mem_map_of_mem ha)

theorem nodup_filter_layer (e given : Element) :
    (((Attribute.layer e.attributes given.attributes).filter
      (·.name ≠ Attribute.className)).map Attribute.name).Nodup :=
  (Attribute.nodup_layer _ _).sublist (List.filter_sublist.map _)

theorem wellNamed_merge (e given : Element) : (e.merge given).WellNamed := by
  let records := (Attribute.layer e.attributes given.attributes).filter
    (·.name ≠ Attribute.className)
  have names : (e.merge given).attributes.map Attribute.name = (Attribute.byName records).keys :=
    (Attribute.byName_byName records).map_name
  refine ⟨names ▸ (Attribute.byName records).nodup, ?_⟩
  rw [names, ← Keyed.contains_eq_true_iff, Keyed.contains,
    Attribute.find?_byName (nodup_filter_layer e given), List.find?_filter]
  simp

theorem attribute?_merge (h : e.WellNamed) (h' : given.WellNamed) :
    (e.merge given).attribute? key =
      ((given.attribute? key).map (Attribute.laidOver · (e.attribute? key))).or (e.attribute? key) := by
  by_cases hk : key = Attribute.className
  · rw [hk, (wellNamed_merge e given).attribute?_className, h.attribute?_className,
      h'.attribute?_className]
    rfl
  · have hfilter : ∀ records : List Attribute,
        (records.filter (·.name ≠ Attribute.className)).find? (·.name = key) =
          records.find? (·.name = key) := by
      intro records
      rw [List.find?_filter]
      refine List.find?_congr fun a _ => ?_
      by_cases ha : a.name = key <;> simp [ha, hk]
    have hvalues := (Attribute.byName_byName ((Attribute.layer e.attributes
      given.attributes).filter (·.name ≠ Attribute.className))).find?_values key
    rw [Attribute.find?_byName (nodup_filter_layer e given), hfilter,
      Attribute.find?_layer h.nodup h'.nodup] at hvalues
    exact hvalues

def carries (key : String) (e : Element) : Bool := (e.attribute? key).isSome

/-- Whether the element has an attribute of a name that is not implied. -/
def names (key : String) (e : Element) : Bool := (e.attribute? key).any fun a => !a.implied

/-- Some of the elements names the attribute, or two of them have it. -/
def Promote (key : String) (es : List Element) : Prop :=
  (∃ e ∈ es, e.names key = true) ∨ 2 ≤ es.countP (carries key)

theorem names_of_promote_singleton (h : Promote key [e]) : e.names key = true := by
  rcases h with ⟨e', he, hnames⟩ | h
  · rwa [List.mem_singleton.mp he] at hnames
  · have hle := List.countP_le_length (p := carries key) (l := [e])
    simp only [List.length_singleton] at hle
    omega

/-- One more element promotes the attribute if it names it, or has it as an earlier one does. -/
theorem promote_concat (es : List Element) (g : Element) : Promote key (es ++ [g]) ↔
    Promote key es ∨ g.names key = true ∨
      ((∃ e ∈ es, e.carries key = true) ∧ g.carries key = true) := by
  have hcount : (es ++ [g]).countP (carries key) =
      es.countP (carries key) + if g.carries key then 1 else 0 := by
    rw [List.countP_append, List.countP_singleton]
  have hpos : (∃ e ∈ es, e.carries key = true) ↔ 0 < es.countP (carries key) :=
    List.countP_pos_iff.symm
  rw [Promote, Promote, hcount, hpos]
  simp only [List.mem_append, or_and_right, exists_or, List.mem_singleton, exists_eq_left]
  by_cases hg : g.carries key = true
  · simp only [hg, if_true, and_true]
    constructor
    · rintro ((h | h) | h)
      · exact Or.inl (Or.inl h)
      · exact Or.inr (Or.inl h)
      · exact Or.inr (Or.inr (by omega))
    · rintro ((h | h) | h | h)
      · exact Or.inl (Or.inl h)
      · exact Or.inr (by omega)
      · exact Or.inl (Or.inr h)
      · exact Or.inr (by omega)
  · simp only [hg, Bool.false_eq_true, if_false, and_false, or_false, Nat.add_zero]
    exact or_right_comm

/-- Where elements are merged into another one, what they have is what it gets, and it names what they
promote. By induction from the last one that is merged. -/
theorem foldl_merge (key : String) (h : e.WellNamed) (hgs : ∀ g ∈ gs, g.WellNamed) :
    (gs.foldl merge e).WellNamed ∧
      ((gs.foldl merge e).carries key = true ↔ ∃ c ∈ e :: gs, c.carries key = true) ∧
      ((gs.foldl merge e).names key = true ↔ Promote key (e :: gs)) := by
  induction gs using List.reverseRecOn with
  | nil =>
    refine ⟨h, by simp, fun hnames => Or.inl ⟨e, by simp, hnames⟩, names_of_promote_singleton⟩
  | append_singleton gs g ih =>
    obtain ⟨hfold, hcarries, hnames⟩ := ih fun g hg => hgs g (by simp [hg])
    have hg : g.WellNamed := hgs g (by simp)
    have hmerge : ((gs.foldl merge e).merge g).attribute? key = _ := attribute?_merge hfold hg
    rw [List.foldl_append, List.foldl_cons, List.foldl_nil, ← List.cons_append]
    refine ⟨wellNamed_merge _ _, ?_, ?_⟩
    · rw [carries, hmerge]
      simp only [List.mem_append, or_and_right, exists_or, ← hcarries, List.mem_singleton,
        exists_eq_left]
      rw [carries, carries]
      cases g.attribute? key <;> cases (gs.foldl merge e).attribute? key <;> simp
    · rw [promote_concat, ← hcarries, ← hnames, names, hmerge, names, names, carries, carries]
      cases ha : g.attribute? key <;> cases hb : (gs.foldl merge e).attribute? key <;>
        simp [Attribute.laidOver]

end Element

end SnippetTree
