import SnippetTree.Registry
import Mathlib.Data.List.DropRight

namespace SnippetTree

theorem Text.trim_eq_empty_iff (s : String) : trim s = "" ↔ ∀ c ∈ s.toList, isBlank c = true := by
  have ends : ∀ l : List Char, (∀ c ∈ l.dropWhile isBlank, isBlank c = true) ↔
      ∀ c ∈ l, isBlank c = true := fun l => by
    rw [← List.dropWhile_eq_nil_iff, List.dropWhile_idempotent, List.dropWhile_eq_nil_iff]
  rw [trim, ← String.toList_inj, String.toList_ofList, String.toList_empty, List.reverse_eq_nil_iff,
    List.dropWhile_eq_nil_iff, ← ends s.toList]
  simp only [List.mem_reverse]

namespace Registry

/-- A change that binds names to a snippet. -/
inductive Change where
  | add (serial : Nat) (key : String) (source : Source)
  | share (name target : String)
  deriving DecidableEq

def Change.names : Change → List String
  | .add _ key _ => namesOfKey key
  | .share name _ => [name]

/-- What a change gives back and the registry after it, which is the same one if the change fails.
-/
def attempt (r : Registry) : Change → Except Fault Snippet × Registry
  | .add serial key source =>
    match r.add serial key source with
    | .ok a => (.ok a.snippet, a.registry)
    | .error fault => (.error fault, r)
  | .share name target =>
    match r.share name target with
    | .ok (r', snippet) => (.ok snippet, r')
    | .error fault => (.error fault, r)

def run (cs : List Change) : Registry := cs.foldl (fun r c => (r.attempt c).2) ∅

/-- A change with what it gave back. -/
structure Attempt where
  change : Change
  answer : Except Fault Snippet
  deriving DecidableEq

/-- The snippet that an attempt bound a name to. -/
def Attempt.bound? (e : Attempt) (name : String) : Option Snippet :=
  if name ∈ e.change.names then e.answer.toOption else none

def Attempt.names (e : Attempt) : List String :=
  match e.answer with
  | .ok _ => e.change.names
  | .error _ => []

/-- The snippet that the last attempt that bound a name bound it to. -/
def lastBound? (attempts : List Attempt) (name : String) : Option Snippet :=
  attempts.reverse.findSome? (·.bound? name)

/-- The bound names in the order of their first binding. -/
def firstBound (attempts : List Attempt) : List String := (attempts.flatMap Attempt.names).eraseDups

/-- What a change gives back after the given attempts. -/
def Change.answer (attempts : List Attempt) : Change → Except Fault Snippet
  | .add serial key source =>
    match namesOfKey key with
    | [] => .error (.blankKey key)
    | first :: _ => source.toSnippet serial (some first)
  | .share _ target =>
    match lastBound? attempts target with
    | some snippet => .ok snippet
    | none => .error (.unknownSnippet target)

/-- The attempts of a run of changes, each change answered by those before it. -/
def history (cs : List Change) : List Attempt :=
  cs.foldl (fun attempts c => attempts ++ [⟨c, c.answer attempts⟩]) []

variable {r : Registry} {attempts : List Attempt} {c : Change} {name : String} {s : Snippet}

theorem Attempt.bound?_eq_some_iff {e : Attempt} :
    e.bound? name = some s ↔ name ∈ e.change.names ∧ e.answer = .ok s := by
  obtain ⟨c, _ | s'⟩ := e <;> simp [bound?, Except.toOption]

theorem Attempt.bound?_eq_none_iff {e : Attempt} : e.bound? name = none ↔ name ∉ e.names := by
  obtain ⟨c, _ | s'⟩ := e <;> simp [bound?, names, Except.toOption]

theorem lastBound?_concat (attempts : List Attempt) (e : Attempt) (name : String) :
    lastBound? (attempts ++ [e]) name = (e.bound? name).or (lastBound? attempts name) := by
  rw [lastBound?, List.reverse_append, List.findSome?_append, List.reverse_singleton,
    List.findSome?_singleton]
  rfl

theorem lastBound?_eq_some_iff : lastBound? attempts name = some s ↔
    ∃ before c after, attempts = before ++ ⟨c, .ok s⟩ :: after ∧ name ∈ c.names ∧
      ∀ e ∈ after, name ∉ e.names := by
  rw [lastBound?, List.findSome?_eq_some_iff]
  constructor
  · rintro ⟨after, ⟨c, answer⟩, before, split, bound, rest⟩
    obtain ⟨named, rfl⟩ := Attempt.bound?_eq_some_iff.mp bound
    refine ⟨before.reverse, c, after.reverse, ?_, named, fun e he => ?_⟩
    · simpa using congrArg List.reverse split
    · exact Attempt.bound?_eq_none_iff.mp (rest e (List.mem_reverse.mp he))
  · rintro ⟨before, c, after, rfl, named, rest⟩
    refine ⟨after.reverse, ⟨c, .ok s⟩, before.reverse, by simp,
      Attempt.bound?_eq_some_iff.mpr ⟨named, rfl⟩, fun e he => ?_⟩
    exact Attempt.bound?_eq_none_iff.mpr (rest e (List.mem_reverse.mp he))

theorem lastBound?_eq_none_iff :
    lastBound? attempts name = none ↔ ∀ e ∈ attempts, name ∉ e.names := by
  simp [lastBound?, Attempt.bound?_eq_none_iff]

theorem namesOfKey_eq_nil_iff (key : String) : namesOfKey key = [] ↔
    ∀ piece ∈ key.toList.splitOnP (· == '|'), ∀ c ∈ piece, Text.isBlank c = true := by
  simp [namesOfKey, Text.pieces, List.filter_eq_nil_iff, Text.trim_eq_empty_iff]

theorem Change.answer_eq_error_iff_of_add {serial : Nat} {key : String} {source : Source}
    {fault : Fault} : (Change.add serial key source).answer attempts = .error fault ↔
      namesOfKey key = [] ∧ fault = .blankKey key ∨
      ∃ first rest kind, namesOfKey key = first :: rest ∧ source = .other kind ∧
        fault = .badSource (some first) kind := by
  cases hkey : namesOfKey key with
  | nil => simp [answer, hkey, eq_comm]
  | cons first rest => cases source <;> simp [answer, hkey, Source.toSnippet, eq_comm]

/-- A registry is told by attempts: they say what each name is bound to, and the order of the names.
-/
structure ToldBy (r : Registry) (attempts : List Attempt) : Prop where
  find : ∀ name, r.find? name = lastBound? attempts name
  names : r.names = firstBound attempts

theorem eraseDups_concat (bound : List String) (name : String) :
    (bound ++ [name]).eraseDups =
      if name ∈ bound.eraseDups then bound.eraseDups else bound.eraseDups ++ [name] := by
  rw [List.eraseDups_append]
  by_cases h : name ∈ bound <;> simp [h, List.removeAll, List.eraseDups_cons]

theorem names_foldl_bind {bound : List String} (names : List String) (a : Addition)
    (h : a.registry.names = bound.eraseDups) :
    (names.foldl Addition.bind a).registry.names = (bound ++ names).eraseDups := by
  induction names generalizing a bound with
  | nil => rw [List.append_nil]; exact h
  | cons name names ih =>
    have step : (a.bind name).registry.names = (bound ++ [name]).eraseDups := by
      rw [eraseDups_concat, ← h]
      exact Keyed.keys_insert ..
    rw [List.foldl_cons, ih _ step, List.append_assoc, List.singleton_append]

/-- The registry after a change that gave back `s` has all names of the change bound to `s`. -/
structure Rebinds (r r' : Registry) (names : List String) (s : Snippet) : Prop where
  find : ∀ name, r'.find? name = if name ∈ names then some s else r.find? name
  names : ∀ bound : List String, r.names = bound.eraseDups → r'.names = (bound ++ names).eraseDups

theorem rebinds_foldl_bind (r : Registry) (s : Snippet) (names : List String) :
    r.Rebinds (names.foldl Addition.bind { registry := r, snippet := s }).registry names s where
  find := find?_foldl_bind names _
  names := fun _ h => names_foldl_bind names _ h

theorem rebinds_insert (r : Registry) (s : Snippet) (name : String) :
    r.Rebinds ⟨r.snippets.insert name s⟩ [name] s := rebinds_foldl_bind r s [name]

/-- A change gives back what the attempts before it say. If that is a snippet, then its names are
bound to it, and otherwise the registry is the same. -/
theorem ToldBy.attempt_cases (told : r.ToldBy attempts) (c : Change) :
    (∃ s r', r.attempt c = (.ok s, r') ∧ c.answer attempts = .ok s ∧ r.Rebinds r' c.names s) ∨
    ∃ fault, r.attempt c = (.error fault, r) ∧ c.answer attempts = .error fault := by
  cases c with
  | add serial key source =>
    cases hkey : namesOfKey key with
    | nil =>
      exact Or.inr ⟨.blankKey key, by simp [attempt, add, hkey], by simp [Change.answer, hkey]⟩
    | cons first rest =>
      have answer : (Change.add serial key source).answer attempts =
          source.toSnippet serial (some first) := by
        simp [Change.answer, hkey]
      cases hs : source.toSnippet serial (some first) with
      | error fault =>
        exact Or.inr ⟨fault, by simp [attempt, add, hkey, hs, Except.map], answer.trans hs⟩
      | ok s =>
        refine Or.inl ⟨s, _, ?_, answer.trans hs, rebinds_foldl_bind r s _⟩
        simp [attempt, add, Change.names, hkey, hs, Except.map, snippet_foldl_bind, Addition.bind]
  | share name target =>
    have found := told.find target
    cases h : lastBound? attempts target with
    | none =>
      rw [h] at found
      exact Or.inr ⟨.unknownSnippet target, by simp [attempt, share, found],
        by simp [Change.answer, h]⟩
    | some s =>
      rw [h] at found
      exact Or.inl ⟨s, _, by simp [attempt, share, found], by simp [Change.answer, h],
        rebinds_insert r s name⟩

theorem ToldBy.attempt (told : r.ToldBy attempts) (c : Change) :
    (r.attempt c).2.ToldBy (attempts ++ [⟨c, c.answer attempts⟩]) := by
  rcases told.attempt_cases c with ⟨s, r', made, answer, rebinds⟩ | ⟨fault, made, answer⟩
  · rw [made, answer]
    constructor
    · intro name
      rw [rebinds.find, lastBound?_concat, told.find]
      by_cases named : name ∈ c.names <;> simp [Attempt.bound?, named, Except.toOption]
    · rw [rebinds.names _ told.names, firstBound, List.flatMap_append, List.flatMap_singleton]
      rfl
  · rw [made, answer]
    constructor
    · intro name
      rw [lastBound?_concat, told.find]
      simp [Attempt.bound?, Except.toOption]
    · rw [told.names, firstBound, firstBound, List.flatMap_append, List.flatMap_singleton]
      simp [Attempt.names]

/-- A run of changes is told by its history. -/
theorem toldBy_history (cs : List Change) : (run cs).ToldBy (history cs) := by
  induction cs using List.reverseRecOn with
  | nil => exact ⟨fun _ => rfl, rfl⟩
  | append_singleton cs c ih =>
    rw [run, history, List.foldl_concat, List.foldl_concat]
    exact ih.attempt c

theorem history_concat (cs : List Change) (c : Change) :
    history (cs ++ [c]) = history cs ++ [⟨c, c.answer (history cs)⟩] :=
  List.foldl_concat ..

theorem map_change_history (cs : List Change) : (history cs).map Attempt.change = cs := by
  induction cs using List.reverseRecOn with
  | nil => rfl
  | append_singleton cs c ih => rw [history_concat, List.map_append, ih, List.map_singleton]

/-- The history of a run of changes has each change with what it gave back, and says all about the
registry after it. A name is bound to what the last attempt that bound it gave back, and to nothing
where there is none; names are listed once each, in the order of their first binding. An addition
fails just where all pieces of its key are blank, or else for its source, and sharing fails just
where the target is unbound. A change that fails leaves the registry as it is, and one that does not
binds all its names to what it gives back, and no other name. -/
theorem run_told_by_history (cs : List Change) :
    let r := run cs
    let attempts := history cs
    attempts.map Attempt.change = cs ∧
    (∀ c, history (cs ++ [c]) = attempts ++ [⟨c, (r.attempt c).1⟩]) ∧
    (∀ name s, r.find? name = some s ↔ ∃ before c after,
      attempts = before ++ ⟨c, .ok s⟩ :: after ∧ name ∈ c.names ∧ ∀ e ∈ after, name ∉ e.names) ∧
    (∀ name, r.find? name = none ↔ ∀ e ∈ attempts, name ∉ e.names) ∧
    r.names = (attempts.flatMap Attempt.names).eraseDups ∧ r.names.Nodup ∧
    r.size = r.names.length ∧ (∀ name, r.contains name = true ↔ name ∈ r.names) ∧
    (∀ serial key source fault, (r.attempt (.add serial key source)).1 = .error fault ↔
      (∀ piece ∈ key.toList.splitOnP (· == '|'), ∀ c ∈ piece, Text.isBlank c = true) ∧
        fault = .blankKey key ∨
      ∃ first rest kind, namesOfKey key = first :: rest ∧ source = .other kind ∧
        fault = .badSource (some first) kind) ∧
    (∀ serial key source s, (r.attempt (.add serial key source)).1 = .ok s ↔ ∃ first rest,
      namesOfKey key = first :: rest ∧ source.toSnippet serial (some first) = .ok s) ∧
    (∀ name target fault, (r.attempt (.share name target)).1 = .error fault ↔
      r.find? target = none ∧ fault = .unknownSnippet target) ∧
    (∀ name target s, (r.attempt (.share name target)).1 = .ok s ↔ r.find? target = some s) ∧
    (∀ c fault, (r.attempt c).1 = .error fault → (r.attempt c).2 = r) ∧
    (∀ c s, (r.attempt c).1 = .ok s → ∀ name,
      (r.attempt c).2.find? name = if name ∈ c.names then some s else r.find? name) := by
  intro r attempts
  have told : r.ToldBy attempts := toldBy_history cs
  have answers : ∀ c, (r.attempt c).1 = c.answer attempts := fun c => by
    rcases told.attempt_cases c with ⟨s, r', made, answer, -⟩ | ⟨fault, made, answer⟩ <;>
      rw [made, answer]
  refine ⟨map_change_history cs, fun c => ?_, fun name s => ?_, fun name => ?_, told.names,
    r.snippets.nodup, (List.length_map _).symm, fun name => Keyed.contains_eq_true_iff ..,
    fun serial key source fault => ?_, fun serial key source s => ?_, fun name target fault => ?_,
    fun name target s => ?_, fun c fault failed => ?_, fun c s bound => ?_⟩
  · rw [history_concat, answers]
  · rw [told.find]
    exact lastBound?_eq_some_iff
  · rw [told.find]
    exact lastBound?_eq_none_iff
  · rw [answers, ← namesOfKey_eq_nil_iff]
    exact Change.answer_eq_error_iff_of_add
  · rw [answers, Change.answer]
    cases namesOfKey key <;> simp
  · rw [answers, told.find, Change.answer]
    cases lastBound? attempts target <;> simp [eq_comm]
  · rw [answers, told.find, Change.answer]
    cases lastBound? attempts target <;> simp
  · rcases told.attempt_cases c with ⟨s, r', made, -⟩ | ⟨fault', made, -⟩ <;> rw [made] at failed ⊢
    cases failed
  · rcases told.attempt_cases c with ⟨s', r', made, -, rebinds⟩ | ⟨fault, made, -⟩ <;>
      rw [made] at bound ⊢ <;> cases bound
    exact rebinds.find

/-- Two names of one key, the second of which is bound anew; the first one keeps the snippet, and so
does a name that shares it. A key of blank pieces and a source that is none bind nothing. -/
example :
    let r := run [.add 0 "a| b |a" (.template "x"), .add 1 " | " (.template "y"), .share "c" "b",
      .add 2 "b|d" (.other "int"), .add 3 "d|b" (.template "z"), .share "e" "f"]
    r.names = ["a", "b", "c", "d"] ∧ r.find? "a" = r.find? "c" ∧
      r.find? "b" = some ⟨3, .template "z", some "d"⟩ := by decide +kernel

end Registry

end SnippetTree
