import SnippetTree.Record
import SnippetTree.Text.Blank

namespace SnippetTree

/-- A value offered for a field. -/
inductive Loose where
  | null
  | flag (b : Bool)
  | whole (n : Int)
  /-- The number `digits / 10 ^ places`. -/
  | decimal (digits : Int) (places : Nat)
  | text (s : String)
  | list
  | group
  deriving DecidableEq

/-- Why a field could not be read. -/
inductive Problem where
  | missing
  | notText
  | notFlag
  | unreadableFlag
  | notNumber
  | fraction
  | unreadableNumber
  deriving DecidableEq

namespace Loose

/-- A text must be a text. -/
def toText : Loose → Except Problem String
  | .text s => .ok s
  | _ => .error .notText

def toText? : Loose → Except Problem (Option String)
  | .null => .ok none
  | v => some <$> v.toText

/-- The words for a flag, in lower case. -/
def flagWords : List (String × Bool) :=
  [("0", false), ("off", false), ("f", false), ("false", false), ("n", false), ("no", false),
    ("1", true), ("on", true), ("t", true), ("true", true), ("y", true), ("yes", true)]

def flagOfInt : Int → Except Problem Bool
  | 0 => .ok false
  | 1 => .ok true
  | _ => .error .unreadableFlag

/-- A flag is a truth value, the number zero or one, or one of the words for it in any case. -/
def toFlag : Loose → Except Problem Bool
  | .flag b => .ok b
  | .whole n => flagOfInt n
  | .decimal digits places =>
    if digits % Int.pow 10 places = 0 then flagOfInt (digits / Int.pow 10 places) else .error .notFlag
  | .text s =>
    match flagWords.lookup (s.map Char.toLower) with
    | some b => .ok b
    | none => .error .unreadableFlag
  | _ => .error .notFlag

/-- The digits of a numeral, in which single low lines may stand between digits. -/
def digitsOf? (cs : List Char) : Option (List Char) :=
  let groups := cs.splitOnP (· == '_')
  if groups.all fun g => !g.isEmpty && g.all Char.isDigit then some groups.flatten else none

/-- The number written by decimal digits. -/
def natOfDigits (cs : List Char) : Nat :=
  cs.foldl (fun n c => 10 * n + (c.toNat - '0'.toNat)) 0

/-- Reads an unsigned numeral, which may end in a point followed by zeros only. -/
def natOfNumeral? (cs : List Char) : Option Nat :=
  let (integral, fraction) := cs.span (· != '.')
  if (fraction.drop 1).all (· == '0') then (digitsOf? integral).map natOfDigits else none

/-- Reads a numeral, which may be signed and stand between blanks. -/
def intOfText? (s : String) : Option Int :=
  match (Text.trim s).toList with
  | '-' :: cs => (natOfNumeral? cs).map fun n => -(n : Int)
  | '+' :: cs => (natOfNumeral? cs).map Int.ofNat
  | cs => (natOfNumeral? cs).map Int.ofNat

/-- A number is a whole number, a decimal without fraction, a truth value, or a numeral. -/
def toInt : Loose → Except Problem Int
  | .flag b => .ok (if b then 1 else 0)
  | .whole n => .ok n
  | .decimal digits places =>
    if digits % Int.pow 10 places = 0 then .ok (digits / Int.pow 10 places) else .error .fraction
  | .text s =>
    match intOfText? s with
    | some n => .ok n
    | none => .error .unreadableNumber
  | _ => .error .notNumber

def toInt? : Loose → Except Problem (Option Int)
  | .null => .ok none
  | v => some <$> v.toInt

end Loose

/-- The fields that could not be read, each with its problem. -/
abbrev Problems := List (String × Problem)

def Problems.of {α : Type} (field : String) : Except Problem α → Problems
  | .ok _ => []
  | .error p => [(field, p)]

theorem Problems.fields_of {α : Type} (field : String) (r : Except Problem α) :
    ((Problems.of field r).map Prod.fst).Sublist [field] := by
  cases r with
  | ok a => exact List.nil_sublist _
  | error p => exact List.Sublist.refl _

theorem Problems.of_eq_nil {α : Type} {field : String} {r : Except Problem α}
    (h : Problems.of field r = []) : ∃ a, r = .ok a := by
  cases r with
  | ok a => exact ⟨a, rfl⟩
  | error p => nomatch h

/-- What three readings are refused for: at least one of their fields, each once and in order. -/
theorem Problems.refused {α β γ : Type} {field₁ field₂ field₃ : String} {r₁ : Except Problem α}
    {r₂ : Except Problem β} {r₃ : Except Problem γ}
    (h : ∀ a b c, r₁ = .ok a → r₂ = .ok b → r₃ = .ok c → False) :
    let problems : Problems := .of field₁ r₁ ++ .of field₂ r₂ ++ .of field₃ r₃
    problems ≠ [] ∧ (problems.map Prod.fst).Sublist [field₁, field₂, field₃] := by
  refine ⟨fun hp => ?_, ?_⟩
  · obtain ⟨hp, h₃⟩ := List.append_eq_nil_iff.mp hp
    obtain ⟨h₁, h₂⟩ := List.append_eq_nil_iff.mp hp
    obtain ⟨a, ha⟩ := Problems.of_eq_nil h₁
    obtain ⟨b, hb⟩ := Problems.of_eq_nil h₂
    obtain ⟨c, hc⟩ := Problems.of_eq_nil h₃
    exact h a b c ha hb hc
  · rw [List.map_append, List.map_append]
    exact ((Problems.fields_of field₁ r₁).append (Problems.fields_of field₂ r₂)).append
      (Problems.fields_of field₃ r₃)

/-- Reads an attribute: the name is required, the value may be missing or null, and the flag is
false when it is missing. -/
def Attribute.read (offered : String → Option Loose) : Except Problems Attribute :=
  let name := ((offered "name").map Loose.toText).getD (.error .missing)
  let value := ((offered "value").map Loose.toText?).getD (.ok none)
  let implied := ((offered "implied").map Loose.toFlag).getD (.ok false)
  match name, value, implied with
  | .ok name, .ok value, .ok implied => .ok { name, value, implied }
  | _, _, _ => .error (.of "name" name ++ .of "value" value ++ .of "implied" implied)

/-- An attribute is refused for its own fields only. -/
theorem Attribute.fields_refused {offered : String → Option Loose} {problems : Problems}
    (h : Attribute.read offered = .error problems) :
    problems ≠ [] ∧ (problems.map Prod.fst).Sublist ["name", "value", "implied"] := by
  simp only [Attribute.read] at h
  split at h
  · cases h
  next hr =>
    cases h
    exact Problems.refused hr

/-- Reads a repetition, each of whose numbers may be missing or null. -/
def Repetition.read (offered : String → Option Loose) : Except Problems Repetition :=
  let number field := ((offered field).map Loose.toInt?).getD (.ok none)
  match number "count", number "index", number "value" with
  | .ok count, .ok index, .ok value => .ok { count, index, value }
  | count, index, value => .error (.of "count" count ++ .of "index" index ++ .of "value" value)

/-- A repetition is refused for its own fields only. -/
theorem Repetition.fields_refused {offered : String → Option Loose} {problems : Problems}
    (h : Repetition.read offered = .error problems) :
    problems ≠ [] ∧ (problems.map Prod.fst).Sublist ["count", "index", "value"] := by
  simp only [Repetition.read] at h
  split at h
  · cases h
  next hr =>
    cases h
    exact Problems.refused hr

end SnippetTree
