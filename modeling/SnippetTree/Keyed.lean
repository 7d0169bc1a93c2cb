namespace SnippetTree

/-- Entries in the order of their keys' first binding; an erased key that is bound again comes
last. -/
structure Keyed (β : Type) where
  entries : List (String × β)
  nodup : (entries.map Prod.fst).Nodup
  deriving DecidableEq

namespace Keyed

variable {β : Type}

def empty : Keyed β := ⟨[], .nil⟩

instance : EmptyCollection (Keyed β) := ⟨empty⟩
instance : Inhabited (Keyed β) := ⟨empty⟩

def keys (m : Keyed β) : List String := m.entries.map Prod.fst

def values (m : Keyed β) : List β := m.entries.map Prod.snd

def size (m : Keyed β) : Nat := m.entries.length

def find? (m : Keyed β) (key : String) : Option β :=
  (m.entries.find? (·.1 = key)).map Prod.snd

def contains (m : Keyed β) (key : String) : Bool := (m.find? key).isSome

/-- The entries with `key` bound to `value`, in place if it was bound before and last otherwise. -/
def put (key : String) (value : β) : List (String × β) → List (String × β)
  | [] => [(key, value)]
  | entry :: rest => if entry.1 = key then (key, value) :: rest else entry :: put key value rest

theorem map_fst_put (key : String) (value : β) (entries : List (String × β)) :
    (put key value entries).map Prod.fst =
      if key ∈ entries.map Prod.fst then entries.map Prod.fst else entries.map Prod.fst ++ [key] := by
  induction entries with
  | nil => simp [put]
  | cons entry rest ih =>
    by_cases h : entry.1 = key
    · simp [put, h]
    · simp only [put, h, ↓reduceIte, List.map_cons, ih, List.mem_cons, Ne.symm h, false_or]
      split <;> simp

def insert (m : Keyed β) (key : String) (value : β) : Keyed β where
  entries := put key value m.entries
  nodup := by
    rw [map_fst_put]
    split
    · exact m.nodup
    next h => exact List.nodup_append.mpr ⟨m.nodup, by simp, fun a ha b hb => by
        rw [List.mem_singleton.mp hb]; exact fun he => h (he ▸ ha)⟩

def erase (m : Keyed β) (key : String) : Keyed β where
  entries := m.entries.filter (·.1 ≠ key)
  nodup := m.nodup.sublist (List.filter_sublist.map _)

@[simp] theorem find?_empty (key : String) : (∅ : Keyed β).find? key = none := rfl

theorem find?_insert (m : Keyed β) (key other : String) (value : β) :
    (m.insert key value).find? other = if other = key then some value else m.find? other := by
  simp only [insert, find?]
  induction m.entries with
  | nil => by_cases h : other = key <;> simp [put, h, eq_comm (a := key)]
  | cons entry rest ih =>
    by_cases hk : entry.1 = key
    · by_cases h : other = key
      · simp [put, hk, h]
      · simp [put, hk, h, Ne.symm h]
    · by_cases h : entry.1 = other
      · simp [put, h, show other ≠ key from h ▸ hk]
      · simpa [put, hk, h] using ih

theorem keys_insert (m : Keyed β) (key : String) (value : β) :
    (m.insert key value).keys = if key ∈ m.keys then m.keys else m.keys ++ [key] :=
  map_fst_put key value m.entries

theorem contains_eq_true_iff (m : Keyed β) (key : String) :
    m.contains key = true ↔ key ∈ m.keys := by
  simp [contains, find?, keys]

theorem keys_erase (m : Keyed β) (key : String) :
    (m.erase key).keys = m.keys.filter (· ≠ key) := by
  simp [erase, keys, List.filter_map, Function.comp_def]

end Keyed

end SnippetTree
