import SnippetTree.Proofs.Marked
import SnippetTree.Proofs.Sparing

namespace SnippetTree

open Script Mark

variable {σ ρ α β : Type} {g : GuardId}

/-- Some lookup answers with the snippet, which has a template. -/
def Surroundings.Offers (c : Surroundings σ) (x : Snippet) : Prop :=
  (∃ name w w', (c.lookup name).run w = (.done (some (.snippet x)), w')) ∧
    ∃ text, x.body = .template text

namespace Resolution

variable {P : Snippet → Prop} {s : Store} {es es' past future : List (Entry Mark)}

/-- What happens where a snippet is under expansion while its template is walked. -/
def enclose (g : GuardId) (x : Snippet) (inside : List (Entry Mark)) : List (Entry Mark) :=
  .edit (.enter g x) :: .asked (.opens x) :: (inside ++ [.asked (.closes x), .edit (.leave g x)])

theorem enclose_append (g : GuardId) (x : Snippet) (inside es : List (Entry Mark)) :
    enclose g x inside ++ es = .edit (.enter g x) :: .asked (.opens x) ::
      (inside ++ .asked (.closes x) :: .edit (.leave g x) :: es) := by
  simp [enclose]

theorem edits_enclose (g : GuardId) (x : Snippet) (inside : List (Entry Mark)) :
    Entry.edits (enclose g x inside) =
      .enter g x :: (Entry.edits inside ++ [.leave g x]) := by
  simp [enclose]

/-- The guard is entered just where the walk over the template of a snippet begins that it does not
hold yet, and left just where that walk ends. -/
inductive Orderly (P : Snippet → Prop) (g : GuardId) : Store → List (Entry Mark) → Prop
  | nil {s : Store} : Orderly P g s []
  | other {s : Store} {e : Edit} {es : List (Entry Mark)} (spares : e.Spares g)
      (rest : Orderly P g (e.apply s) es) : Orderly P g s (.edit e :: es)
  | walk {s : Store} {x : Snippet} {inside es : List (Entry Mark)} (allowed : P x)
      (inactive : (s.guardAt g).contains x = false)
      (inner : Orderly P g ((Edit.enter g x).apply s) inside)
      (rest : Orderly P g (s.after (Entry.edits (enclose g x inside))) es) :
      Orderly P g s (enclose g x inside ++ es)

theorem Orderly.append (h : Orderly P g s es) (h' : Orderly P g (s.after (Entry.edits es)) es') :
    Orderly P g s (es ++ es') := by
  induction h with
  | nil => exact h'
  | other spares _ ih => exact .other spares (ih h')
  | walk allowed inactive inner _ _ ih =>
    rw [Entry.edits_append, Store.after_append] at h'
    rw [List.append_assoc]
    exact .walk allowed inactive inner (ih h')

theorem guardAt_enclose {x : Snippet} {inside : List (Entry Mark)} (held : s.HasGuard g)
    (inactive : (s.guardAt g).contains x = false)
    (same : (((Edit.enter g x).apply s).after (Entry.edits inside)).guardAt g =
      ((Edit.enter g x).apply s).guardAt g) :
    (s.after (Entry.edits (enclose g x inside))).guardAt g = s.guardAt g := by
  rw [edits_enclose, Store.after_cons, Store.after_append]
  exact held.leave_enter ((held.apply _).after _) inactive same

theorem Orderly.guardAt (h : Orderly P g s es) (held : s.HasGuard g) :
    (s.after (Entry.edits es)).guardAt g = s.guardAt g := by
  induction h with
  | nil => rfl
  | other spares _ ih =>
    rw [Entry.edits_edit, Store.after_cons, ih (held.apply _), Edit.guardAt_apply spares]
  | walk _ inactive _ _ ihi ih =>
    rw [Entry.edits_append, Store.after_append, ih (held.after _),
      guardAt_enclose held inactive (ihi (held.apply _))]

theorem track_enclose {x : Snippet} {inside : List (Entry Mark)}
    (balanced : ∀ xs, inside.foldl track xs = xs) (xs : List Snippet) :
    (enclose g x inside).foldl track xs = xs := by
  simp only [enclose, List.foldl_cons, List.foldl_append, List.foldl_nil, track_edit, track_opens,
    track_closes, balanced]

theorem Orderly.track (h : Orderly P g s es) (xs : List Snippet) : es.foldl track xs = xs := by
  induction h generalizing xs with
  | nil => rfl
  | other _ _ ih => exact ih xs
  | walk _ _ _ _ ihi ih => rw [List.foldl_append, track_enclose ihi, ih]

/-- Once the entries `past` are made from the store `s`, the walks over the templates of `ys` are
under way. These are different snippets that the guard did not hold; by now it holds them, besides
what it held. -/
structure Moment (P : Snippet → Prop) (g : GuardId) (s : Store) (past : List (Entry Mark))
    (ys : List Snippet) : Prop where
  follows : ∀ xs, past.foldl Mark.track xs = ys ++ xs
  nodup : ys.Nodup
  allowed : ∀ y ∈ ys, P y ∧ (s.guardAt g).contains y = false
  active : ys ++ (s.guardAt g).active <:+
    ((s.after (Entry.edits past)).guardAt g).active

theorem Moment.start (P : Snippet → Prop) (g : GuardId) (s : Store) : Moment P g s [] [] :=
  ⟨fun _ => rfl, .nil, nofun, List.suffix_rfl⟩

theorem Moment.underway_eq {ys : List Snippet} (h : Moment P g s past ys) : underway past = ys :=
  (h.follows []).trans (List.append_nil ys)

theorem Moment.contains {ys : List Snippet} {y : Snippet} (h : Moment P g s past ys)
    (hy : y ∈ ys ∨ (s.guardAt g).contains y = true) :
    ((s.after (Entry.edits past)).guardAt g).contains y = true := by
  rw [Guard.contains, List.contains_iff_mem] at hy ⊢
  exact h.active.subset (List.mem_append.mpr hy)

theorem active_enter {x : Snippet} (held : s.HasGuard g)
    (inactive : (s.guardAt g).contains x = false) :
    (((Edit.enter g x).apply s).guardAt g).active = x :: (s.guardAt g).active := by
  rw [held.enter, Guard.insert, inactive]
  rfl

theorem Moment.within {x : Snippet} {ys : List Snippet} (held : s.HasGuard g) (allowed : P x)
    (inactive : (s.guardAt g).contains x = false)
    (h : Moment P g ((Edit.enter g x).apply s) past ys) :
    Moment P g s (.edit (.enter g x) :: .asked (.opens x) :: past) (ys ++ [x]) where
  follows := fun xs => by
    simp only [List.foldl_cons, track_edit, track_opens, h.follows, List.append_assoc,
      List.singleton_append]
  nodup := by
    rw [List.nodup_append_comm, List.singleton_append, List.nodup_cons]
    refine ⟨fun hx => ?_, h.nodup⟩
    have out := (h.allowed x hx).2
    rw [held.enter, Guard.contains_insert, beq_self_eq_true, Bool.true_or] at out
    cases out
  allowed := by
    intro y hy
    rcases List.mem_append.mp hy with hy | hy
    · have out := (h.allowed y hy).2
      rw [held.enter, Guard.contains_insert, Bool.or_eq_false_iff] at out
      exact ⟨(h.allowed y hy).1, out.2⟩
    · rw [List.mem_singleton.mp hy]
      exact ⟨allowed, inactive⟩
  active := by
    rw [List.append_assoc, List.singleton_append, ← active_enter held inactive]
    exact h.active

theorem Moment.later {ys : List Snippet} (before : List (Entry Mark))
    (same : (s.after (Entry.edits before)).guardAt g = s.guardAt g)
    (balanced : ∀ xs, before.foldl Mark.track xs = xs)
    (h : Moment P g (s.after (Entry.edits before)) past ys) : Moment P g s (before ++ past) ys where
  follows := fun xs => by rw [List.foldl_append, balanced, h.follows]
  nodup := h.nodup
  allowed := fun y hy => same ▸ h.allowed y hy
  active := by
    rw [Entry.edits_append, Store.after_append, ← same]
    exact h.active

theorem cut_around {ι : Type} {a : ι} {inside es before after : List ι}
    (cut : inside ++ a :: es = before ++ after) :
    (∃ mid, inside = before ++ mid ∧ after = mid ++ a :: es) ∨
      ∃ past, before = inside ++ a :: past ∧ es = past ++ after := by
  rcases List.append_eq_append_iff.mp cut with ⟨mid, rfl, hmid⟩ | ⟨mid, rfl, rfl⟩
  · cases mid with
    | nil => exact Or.inl ⟨[], by simp, hmid.symm⟩
    | cons e past =>
      obtain ⟨rfl, rfl⟩ := List.cons.inj hmid
      exact Or.inr ⟨past, rfl, rfl⟩
  · exact Or.inl ⟨mid, rfl, rfl⟩

theorem cut_enclose {x : Snippet} {inside : List (Entry Mark)}
    (cut : enclose g x inside ++ es = past ++ future) :
    past = [] ∨ past = [.edit (.enter g x)] ∧ future.head? = some (.asked (.opens x)) ∨
    (∃ p q, inside = p ++ q ∧ past = .edit (.enter g x) :: .asked (.opens x) :: p ∧
      future = q ++ .asked (.closes x) :: .edit (.leave g x) :: es) ∨
    past = .edit (.enter g x) :: .asked (.opens x) :: (inside ++ [.asked (.closes x)]) ∧
      future = .edit (.leave g x) :: es ∨
    ∃ p, past = enclose g x inside ++ p ∧ es = p ++ future := by
  rw [enclose_append] at cut
  rcases past with _ | ⟨a, _ | ⟨b, past⟩⟩
  · exact Or.inl rfl
  · obtain ⟨rfl, hfuture⟩ := List.cons.inj cut
    cases hfuture
    exact Or.inr (Or.inl ⟨rfl, rfl⟩)
  · obtain ⟨rfl, hcut⟩ := List.cons.inj cut
    obtain ⟨rfl, rest⟩ := List.cons.inj hcut
    refine Or.inr (Or.inr ?_)
    rcases cut_around rest with ⟨mid, rfl, rfl⟩ | ⟨_ | ⟨c, past⟩, rfl, hes⟩
    · exact Or.inl ⟨past, mid, rfl, rfl, rfl⟩
    · exact Or.inr (Or.inl ⟨rfl, hes.symm⟩)
    · obtain ⟨rfl, later⟩ := List.cons.inj hes
      exact Or.inr (Or.inr ⟨past, (enclose_append ..).symm, later⟩)

/-- Each moment of an orderly transcript is as it should be, and a snippet that the guard holds is
not entered next. By induction on the transcript: the moment lies within a walk or past it. -/
theorem Orderly.moment (h : Orderly P g s es) (held : s.HasGuard g) (cut : es = past ++ future) :
    (∃ ys, Moment P g s past ys) ∧ ∀ x, future.head? = some (.edit (.enter g x)) →
      ((s.after (Entry.edits past)).guardAt g).contains x = false := by
  induction h generalizing past future with
  | nil =>
    obtain ⟨rfl, rfl⟩ := List.append_eq_nil_iff.mp cut.symm
    exact ⟨⟨[], .start P g _⟩, nofun⟩
  | @other s e es spares _ ih =>
    cases past with
    | nil =>
      obtain rfl : .edit e :: es = future := cut
      refine ⟨⟨[], .start P g s⟩, fun x hx => ?_⟩
      cases hx
      exact absurd rfl spares
    | cons a past =>
      obtain ⟨rfl, hes⟩ := List.cons.inj cut
      obtain ⟨⟨ys, moment⟩, entered⟩ := ih (held.apply e) hes
      exact ⟨⟨ys, .later [.edit e] (Edit.guardAt_apply spares s) (fun _ => rfl) moment⟩,
        entered⟩
  | @walk s x inside es allowed inactive inner _ ihi ih =>
    have held₁ := held.apply (.enter g x)
    have active₁ : (s.guardAt g).active <:+ (((Edit.enter g x).apply s).guardAt g).active :=
      active_enter held inactive ▸ List.suffix_cons x _
    rcases cut_enclose cut with rfl | ⟨rfl, hfuture⟩ | ⟨p, q, rfl, rfl, rfl⟩ | ⟨rfl, rfl⟩ |
      ⟨p, rfl, hes⟩
    -- before the guard is entered
    · obtain rfl : enclose g x inside ++ es = future := cut
      refine ⟨⟨[], .start P g s⟩, fun y hy => ?_⟩
      cases hy
      exact inactive
    -- once it is entered, and the walk is still to begin
    · refine ⟨⟨[], fun _ => rfl, .nil, nofun, active₁⟩, fun y hy => ?_⟩
      cases hfuture.symm.trans hy
    -- within the walk
    · obtain ⟨⟨ys, moment⟩, entered⟩ := ihi held₁ rfl
      refine ⟨⟨_, moment.within held allowed inactive⟩, fun y hy => entered y ?_⟩
      cases q with
      | nil => cases hy
      | cons e q => exact hy
    -- once the walk has ended, before the guard is left
    · refine ⟨⟨[], fun xs => ?_, .nil, nofun, ?_⟩, nofun⟩
      · simp [inner.track]
      · simp only [Entry.edits_edit, Entry.edits_asked, Entry.edits_append, Entry.edits_nil,
          Store.after_cons, List.append_nil, inner.guardAt held₁]
        exact active₁
    -- later on
    · obtain ⟨⟨ys, moment⟩, entered⟩ := ih (held.after _) hes
      refine ⟨⟨ys, moment.later _ (guardAt_enclose held inactive (inner.guardAt held₁))
        (track_enclose inner.track)⟩, fun y hy => ?_⟩
      rw [Entry.edits_append, Store.after_append]
      exact entered y hy

/-- Between any two edits there is a moment at which the guard holds just the snippets of the walks
that are under way, besides what it held. -/
theorem Orderly.between (h : Orderly P g s es) (held : s.HasGuard g) {before after : List Edit}
    (cut : Entry.edits es = before ++ after) :
    ∃ past future ys, es = past ++ future ∧ Entry.edits past = before ∧
      Entry.edits future = after ∧ Moment P g s past ys ∧
      ((s.after before).guardAt g).active = ys ++ (s.guardAt g).active := by
  induction h generalizing before after with
  | nil =>
    obtain ⟨rfl, rfl⟩ := List.append_eq_nil_iff.mp cut.symm
    exact ⟨[], [], [], rfl, rfl, rfl, .start P g _, rfl⟩
  | @other s e es spares _ ih =>
    cases before with
    | nil => exact ⟨[], _, [], rfl, rfl, cut, .start P g s, rfl⟩
    | cons a before =>
      obtain ⟨rfl, hes⟩ := List.cons.inj cut
      obtain ⟨past, future, ys, rfl, rfl, rfl, moment, active⟩ := ih (held.apply e) hes
      have same : (e.apply s).guardAt g = s.guardAt g := Edit.guardAt_apply spares s
      exact ⟨.edit e :: past, future, ys, rfl, rfl, rfl,
        moment.later [.edit e] same fun _ => rfl, same ▸ active⟩
  | @walk s x inside es allowed inactive inner _ ihi ih =>
    have held₁ := held.apply (.enter g x)
    cases before with
    | nil => exact ⟨[], _, [], rfl, rfl, cut, .start P g s, rfl⟩
    | cons a before =>
      rw [Entry.edits_append, edits_enclose, List.cons_append, List.append_assoc] at cut
      obtain ⟨rfl, inner_cut⟩ := List.cons.inj cut
      -- of the moments between two edits, the one next to the walk is taken
      rcases cut_around inner_cut with ⟨mid, hinside, rfl⟩ | ⟨later, rfl, hes⟩
      · obtain ⟨past, future, ys, rfl, rfl, rfl, moment, active⟩ := ihi held₁ hinside
        refine ⟨.edit (.enter g x) :: .asked (.opens x) :: past,
          future ++ .asked (.closes x) :: .edit (.leave g x) :: es, _, ?_, rfl, by simp,
          moment.within held allowed inactive, ?_⟩
        · rw [enclose_append, List.append_assoc]
          rfl
        · rw [Store.after_cons, active, active_enter held inactive, List.append_assoc]
          rfl
      · have same := guardAt_enclose held inactive (inner.guardAt held₁)
        obtain ⟨past, future, ys, rfl, rfl, rfl, moment, active⟩ := ih (held.after _) hes
        have hpast : Entry.edits (enclose g x inside ++ past) =
            .enter g x :: (Entry.edits inside ++ .leave g x :: Entry.edits past) := by
          simp [edits_enclose]
        refine ⟨enclose g x inside ++ past, future, ys, (List.append_assoc ..).symm, hpast, rfl,
          moment.later _ same (track_enclose inner.track), ?_⟩
        rw [← hpast, Entry.edits_append, Store.after_append, active, same]

/-- From each world in which the guard is `A`, the transcript of the script is orderly. -/
def Orders (P : Snippet → Prop) (g : GuardId) (A : Guard) (p : Script σ Mark α) : Prop :=
  p.Tells fun s es => s.HasGuard g → s.guardAt g = A → Orderly P g s es

variable {A : Guard} {w : World σ}

theorem orderly_composes (P : Snippet → Prop) (g : GuardId) (A : Guard) :
    Composes fun s es => s.HasGuard g → s.guardAt g = A → Orderly P g s es where
  nil := fun _ _ _ => .nil
  append := fun _ es _ h h' held hA =>
    (h held hA).append (h' (held.after (Entry.edits es)) (((h held hA).guardAt held).trans hA))

theorem Orders.bind {p : Script σ Mark α} {f : α → Script σ Mark β} (h : Orders P g A p)
    (rest : ∀ a, Orders P g A (f a)) : Orders P g A (p >>= f) :=
  (orderly_composes P g A).bind h rest

theorem Orders.read (f : Store → α) : Orders P g A (Script.read f : Script σ Mark α) :=
  (orderly_composes P g A).read f

theorem Orderly.of_spares {p : Script σ Empty α} (h : p.Spares g) (held : w.store.HasGuard g) :
    Orderly P g w.store ((p.edits w).map .edit) := by
  induction p generalizing w with
  | done | fail | exhausted => exact .nil
  | look next ih => exact ih w.store (h w.store held) held
  | edit e next ih =>
    simp only [edits]
    cases e.refusal? w.store with
    | some fault => exact ih (.error fault) (h.2 _) held
    | none =>
      exact .other h.1
        (ih (.ok ()) (h.2 _) (w := { w with store := e.apply w.store }) (held.apply e))
  | host change next ih =>
    exact ih w.state (h w.state) (w := { w with state := change w.state }) held
  | ask r _ => exact r.elim

theorem Orders.closed {p : Script σ Empty α} (h : p.Spares g) : Orders P g A p.closed := by
  intro w held _
  rw [transcript_closed]
  exact .of_spares h held

theorem Orders.perform {e : Edit} (h : e.Spares g) :
    Orders P g A (Script.perform e : Script σ Mark Unit) := by
  intro w _ _
  simp only [Script.perform, transcript]
  cases e.refusal? w.store with
  | some fault => exact .nil
  | none => exact .other h .nil

theorem Orders.serve {p : Script σ ρ α} {answer : ρ → Script σ Mark Unit} (h : p.Spares g)
    (orders : ∀ r, Orders P g A (answer r)) : Orders P g A (p.serve answer) := by
  induction p with
  | done | fail | exhausted => exact fun _ _ _ => .nil
  | look next ih => exact fun w held => ih w.store (h w.store held) w held
  | edit e next ih =>
    intro w held hA
    simp only [Script.serve, transcript]
    cases e.refusal? w.store with
    | some fault => exact ih (.error fault) (h.2 _) w held hA
    | none =>
      exact .other h.1 (ih (.ok ()) (h.2 _) { w with store := e.apply w.store } (held.apply e)
        ((Edit.guardAt_apply h.1 _).trans hA))
  | host change next ih =>
    exact fun w => ih w.state (h w.state) { w with state := change w.state }
  | ask r next ih =>
    have first : Orders P g A (answer r).attempt := by
      intro w
      rw [transcript_attempt]
      exact orders r w
    exact first.bind fun out => ih out (h out)

theorem Orders.within {x : Snippet} {body : Script σ Mark Unit} (allowed : P x)
    (inactive : A.contains x = false) (h : Orders P g (A.insert x) body) :
    Orders P g A (within g x (body.between (.opens x) (.closes x))) := by
  intro w held hA
  let w₁ : World σ := { w with store := (Edit.enter g x).apply w.store }
  have inner : Orderly P g w₁.store (body.transcript w₁) :=
    h w₁ (held.apply _) ((held.enter x).trans (by rw [hA]))
  have whole : (Resolution.within g x (body.between (.opens x) (.closes x))).transcript w =
      .edit (.enter g x) :: ((body.between (.opens x) (.closes x)).ensuring
        (.leave g x)).transcript w₁ := rfl
  rw [whole, transcript_ensuring (fun _ => rfl), transcript_between]
  have walk : Orderly P g w.store (enclose g x (body.transcript w₁) ++ []) :=
    .walk allowed (hA ▸ inactive) inner .nil
  simpa [enclose] using walk

variable {c : Surroundings σ} {steps : Nat} {resolve : NodeId → Script σ Mark Unit}

theorem orders_replaceByMarked {text name : String} {x : Snippet} (spares : c.Spares g)
    (orders : ∀ A n, Orders P g A (resolve n)) (allowed : P x) (inactive : A.contains x = false)
    (n : NodeId) : Orders P g A (replaceByMarked c g steps resolve n name x text) := by
  have composes (A : Guard) := orderly_composes P g A
  refine (Orders.read _).bind fun parent => ?_
  cases parent with
  | none => exact (Orders.read _).bind fun _ _ _ _ => .nil
  | some p =>
    refine (Orders.perform (by trivial)).bind fun _ => ?_
    refine (Orders.closed (spares_parseFor spares text name)).bind fun tree => ?_
    refine (Orders.within allowed inactive ((composes _).walk (orders _) steps tree)).bind fun _ => ?_
    refine (Orders.read _).bind fun last => ?_
    refine Orders.bind ((composes A).walk (orders A) steps n) fun _ => ?_
    refine (Orders.closed (spares_drain (fun _ => spares_perform (by trivial)) n)).bind fun _ => ?_
    exact .closed (spares_splice tree n)

theorem orders_followMarked {name : String} {answer : Answer} (spares : c.Spares g)
    (orders : ∀ A n, Orders P g A (resolve n))
    (offered : ∀ x text, answer = .snippet x → x.body = .template text → P x) (n : NodeId) :
    Orders P g A (followMarked c g steps resolve n name answer) := by
  have hactive : (isActive g answer : Script σ Empty Bool).Spares g := by
    rcases answer with x | ⟨kind, comparable⟩
    · exact spares_read _
    · cases comparable <;> trivial
  intro w
  refine (orderly_composes P g A).bind_of_run (Orders.closed hactive w) fun active w' hrun => ?_
  rw [granted_closed] at hrun
  intro held hA
  cases active with
  | true => exact Orders.perform (by trivial) w' held hA
  | false =>
    rcases answer with x | ⟨kind, comparable⟩
    · obtain ⟨hout, rfl⟩ := Prod.mk.inj hrun
      have inactive : A.contains x = false := hA ▸ Outcome.done.inj hout
      obtain ⟨serial, body, given⟩ := x
      cases body with
      | handler h =>
        refine Orders.bind (Orders.perform (by trivial)) (fun _ => ?_) w held hA
        exact .serve (spares.handle h n) (orders A)
      | template text =>
        exact orders_replaceByMarked spares orders (offered _ text rfl rfl) inactive n w held hA
    · exact .nil

/-- Whatever the surroundings do, a resolution enters its guard for walks over templates only. By
induction on the depth, for all nodes and guards at once. -/
theorem orders_underMarked (spares : c.Spares g) (depth : Nat) (A : Guard) (n : NodeId) :
    Orders c.Offers g A (underMarked c g steps depth n) := by
  induction depth generalizing A n with
  | zero => exact fun _ _ _ => .nil
  | succ depth ih =>
    refine (Orders.read _).bind fun name => ?_
    cases name with
    | none => exact fun _ _ _ => .nil
    | some name =>
      intro w
      refine (orderly_composes c.Offers g A).bind_of_run
        (Orders.closed (spares.lookup name) w) fun answer w' hrun => ?_
      rw [granted_closed] at hrun
      cases answer with
      | none => exact fun _ _ => .nil
      | some answer =>
        refine orders_followMarked spares ih (fun x text hx body => ?_) n w'
        exact ⟨⟨name, w, w', hx ▸ hrun⟩, text, body⟩

end Resolution

/-- In a run with the transcript, between the edits `before` and the edits `after` that follow them,
the walk over the template of the snippet is under way. -/
def Mark.Walking (transcript : List (Entry Mark)) (before after : List Edit) (x : Snippet) : Prop :=
  ∃ past future, transcript = past ++ future ∧ Entry.edits past = before ∧
    Entry.edits future = after ∧ x ∈ underway past

/-- The run ends with the guard as it was, however it ends. At each moment on the way the guard
holds what it held at the start and the snippets whose templates are being walked under it, which
the marked run tells; and a snippet that it holds is not entered once more. -/
structure Resolution.Guarded (c : Surroundings σ) (g : GuardId) (steps depth : Nat) (n : NodeId)
    (w : World σ) : Prop where
  marks : (underMarked c g steps depth n).granted = under c g steps depth n
  exit : ((under c g steps depth n).run w).2.store.guardAt g = w.store.guardAt g
  moment : ∀ before after, (under c g steps depth n).edits w = before ++ after → ∀ x,
    ((w.store.after before).guardAt g).contains x ↔ (w.store.guardAt g).contains x ∨
      Walking ((underMarked c g steps depth n).transcript w) before after x
  entry : ∀ before x rest, (under c g steps depth n).edits w = before ++ .enter g x :: rest →
    ((w.store.after before).guardAt g).contains x = false

theorem exists_transcript_cut {ρ : Type} {es : List (Entry ρ)} {before rest : List Edit} {e : Edit}
    (h : Entry.edits es = before ++ e :: rest) : ∃ past future, es = past ++ .edit e :: future ∧
      Entry.edits past = before ∧ Entry.edits future = rest := by
  obtain ⟨past, es, rfl, hpast, hes⟩ := List.filterMap_eq_append_iff.mp h
  obtain ⟨skipped, a, future, rfl, hskipped, ha, hfuture⟩ := List.filterMap_eq_cons_iff.mp hes
  cases a with
  | asked r => cases ha
  | edit e' =>
    cases ha
    refine ⟨past ++ skipped, future, by simp, ?_, hfuture⟩
    rw [Entry.edits_append, Entry.edits, Entry.edits, hpast,
      List.filterMap_eq_nil_iff.mpr hskipped, List.append_nil]

/-- Whatever the surroundings do, as long as they leave the guard alone, a resolution under it is
guarded: handlers may ask to continue as often and wherever they like, and catch what fails. -/
theorem under_guarded (c : Surroundings σ) (g : GuardId) (spares : c.Spares g) (steps depth : Nat)
    (n : NodeId) (w : World σ) (held : w.store.HasGuard g) :
    Resolution.Guarded c g steps depth n w := by
  have orderly : Resolution.Orderly c.Offers g w.store
      ((Resolution.underMarked c g steps depth n).transcript w) :=
    Resolution.orders_underMarked spares depth _ n w held rfl
  have hedits : Entry.edits ((Resolution.underMarked c g steps depth n).transcript w) =
      (Resolution.under c g steps depth n).edits w := by
    rw [edits_transcript, Resolution.granted_underMarked]
  refine ⟨Resolution.granted_underMarked depth n, ?_, fun before after cut x => ⟨fun hx => ?_, ?_⟩,
    fun before x rest cut => ?_⟩
  · rw [store_run, ← hedits, orderly.guardAt held]
  · obtain ⟨past, future, ys, hes, hpast, hfuture, moment, active⟩ :=
      orderly.between held (hedits.trans cut)
    rw [Guard.contains, List.contains_iff_mem, active, List.mem_append] at hx
    rw [Guard.contains, List.contains_iff_mem]
    exact hx.symm.imp_right fun hx => ⟨past, future, hes, hpast, hfuture, moment.underway_eq ▸ hx⟩
  · rintro (hx | ⟨past, future, hes, rfl, -, hx⟩)
    · obtain ⟨past, future, ys, hes, rfl, -, moment, -⟩ := orderly.between held (hedits.trans cut)
      exact moment.contains (Or.inr hx)
    · obtain ⟨⟨ys, moment⟩, -⟩ := orderly.moment held hes
      exact moment.contains (Or.inl (moment.underway_eq ▸ hx))
  · obtain ⟨past, future, hes, rfl, -⟩ := exists_transcript_cut (hedits.trans cut)
    exact (orderly.moment held hes).2 x rfl

/-- The template of `x` is a node `h`, and that of `y` a node `x`. The handler of `h` gives its node
the name `y` and asks twice to go on with it, whatever comes of that; then it fails. -/
def Surroundings.reentering : Surroundings Unit where
  __ : Surroundings Unit := planting
    ⟨((Keyed.insert ∅ "x" { serial := 0, body := .template "h" }).insert "y"
      { serial := 1, body := .template "x" }).insert "h" { serial := 2, body := .handler ⟨0⟩ }⟩
    fun text => .ok (.node {} [.node { name := some text } []])
  handle _ n := do
    perform (.setName n (some "y"))
    let _ ← (request n).attempt
    let _ ← (request n).attempt
    .fail .lostParent

/-- A node `x` below the node `⟨0⟩`, and a guard. -/
def World.guardedNode : World Unit where
  store := {
    nodes := #[{ links := { firstChild := some ⟨1⟩, lastChild := some ⟨1⟩ } },
      { data := { name := some "x" }, links := { parent := some ⟨0⟩ } }]
    guards := #[{}] }
  state := ()

theorem reentering_spares (g : GuardId) : Surroundings.reentering.Spares g where
  lookup := fun _ => trivial
  parse := fun _ => spares_plant _
  handle := by
    have again : ∀ n, (request n : Script Unit NodeId Unit).attempt.Spares g := fun n out => by
      cases out <;> trivial
    exact fun _ n => (spares_perform (by trivial)).bind fun _ =>
      (again n).bind fun _ => (again n).bind fun _ => trivial

/-- The handler is reached while `x` is under expansion, and `y` comes under expansion within it. -/
theorem under_guarded_reentering :
    Surroundings.reentering.Spares ⟨0⟩ ∧ World.guardedNode.store.HasGuard ⟨0⟩ ∧
      Resolution.Guarded .reentering ⟨0⟩ 9 9 ⟨1⟩ .guardedNode ∧
      ((Resolution.under .reentering ⟨0⟩ 9 9 ⟨1⟩).run .guardedNode).1 = .failed .lostParent ∧
      ∃ past future,
        (Resolution.underMarked .reentering ⟨0⟩ 9 9 ⟨1⟩).transcript .guardedNode = past ++ future ∧
        (underway past).map (·.body) = [.template "x", .template "h"] ∧
        ((World.guardedNode.store.after (Entry.edits past)).guardAt ⟨0⟩).active = underway past := by
  have held : World.guardedNode.store.HasGuard ⟨0⟩ := Nat.zero_lt_one
  refine ⟨reentering_spares ⟨0⟩, held, under_guarded _ ⟨0⟩ (reentering_spares ⟨0⟩) 9 9 ⟨1⟩ _ held,
    rfl, _, _, (List.take_append_drop 14 _).symm, rfl, rfl⟩

end SnippetTree
