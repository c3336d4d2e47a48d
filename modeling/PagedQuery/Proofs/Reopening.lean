import Mathlib.Logic.Relation
import PagedQuery.Proofs.JoinFolders
import PagedQuery.Proofs.PageMachine

/-!
# Opening again

A closed operator remembers how large its pages were, and a sort how it used its buffers. Nothing of
that is seen once it is opened again: what it does from then on depends only on where its children
are. So two closed operators whose children open alike answer alike, call by call, and an operator
that was closed is as good as a new one over children that begin where they have come to. A sort
whose child has failed to close is not closed, and the operators that own it meet it when they open.
-/

namespace PagedQuery

namespace Act

variable {σ τ α β : Type}

/-- Whether an action answers the same from two states, and what holds of the answer and of the two
states after it. -/
def Agrees (x : Act σ α) (root : TempRoot) (s t : σ)
    (post : Except Failure α → σ → σ → Prop) : Prop :=
  (x.run root s).answer = (x.run root t).answer ∧
    post (x.run root s).answer (x.run root s).state (x.run root t).state

variable {root : TempRoot} {s t : σ} {x : Act σ α} {f : α → Act σ β}
  {post weaker : Except Failure α → σ → σ → Prop} {after : Except Failure β → σ → σ → Prop}

theorem Agrees.mono (h : x.Agrees root s t post)
    (hpost : ∀ answer u v, post answer u v → weaker answer u v) : x.Agrees root s t weaker :=
  ⟨h.1, hpost _ _ _ h.2⟩

theorem Agrees.refl (hpost : ∀ answer u, post answer u u) : x.Agrees root s s post :=
  ⟨rfl, hpost _ _⟩

theorem Agrees.bind (hx : x.Agrees root s t post)
    (herror : ∀ e u v, post (.error e) u v → after (.error e) u v)
    (hok : ∀ a u v, post (.ok a) u v → (f a).Agrees root u v after) :
    (x >>= f).Agrees root s t after := by
  obtain ⟨hanswer, hstates⟩ := hx
  unfold Agrees at hok ⊢
  rw [run_bind, run_bind, ← hanswer]
  cases hfound : (x.run root s).answer with
  | ok a =>
    rw [hfound] at hstates
    exact hok a _ _ hstates
  | error e =>
    rw [hfound] at hstates
    exact ⟨rfl, herror e _ _ hstates⟩

theorem agrees_within {part : σ → τ} {put : σ → τ → σ} {x : Act τ α} :
    (within part put x).Agrees root s t post ↔
      x.Agrees root (part s) (part t) fun answer u v => post answer (put s u) (put t v) := Iff.rfl

theorem Agrees.within_bind {part : σ → τ} {put : σ → τ → σ} {x : Act τ α}
    {post : Except Failure α → τ → τ → Prop} (hx : x.Agrees root (part s) (part t) post)
    (herror : ∀ e u v, post (.error e) u v → after (.error e) (put s u) (put t v))
    (hok : ∀ a u v, post (.ok a) u v → (f a).Agrees root (put s u) (put t v) after) :
    (within part put x >>= f).Agrees root s t after := by
  have hwithin : (within part put x).Agrees root s t fun answer u' v' =>
      ∃ u v, post answer u v ∧ u' = put s u ∧ v' = put t v := ⟨hx.1, _, _, hx.2, rfl, rfl⟩
  refine hwithin.bind ?_ ?_
  · rintro e _ _ ⟨u, v, h, rfl, rfl⟩
    exact herror e u v h
  · rintro a _ _ ⟨u, v, h, rfl, rfl⟩
    exact hok a u v h

theorem Agrees.attempt_bind {f : Except Failure α → Act σ β} (hx : x.Agrees root s t post)
    (hf : ∀ answer u v, post answer u v → (f answer).Agrees root u v after) :
    (attempt x >>= f).Agrees root s t after := by
  have hattempt : (attempt x).Agrees root s t fun answer u v =>
      ∃ inner, answer = .ok inner ∧ post inner u v := ⟨congrArg Except.ok hx.1, _, rfl, hx.2⟩
  refine hattempt.bind ?_ ?_
  · rintro e u v ⟨inner, h, -⟩
    cases h
  · rintro answer u v ⟨_, h, hpost⟩
    cases h
    exact hf answer u v hpost

theorem agrees_modify_bind {change : σ → σ} {f : PUnit → Act σ β}
    (h : (f ⟨⟩).Agrees root (change s) (change t) after) :
    (modify change >>= f).Agrees root s t after := h

theorem agrees_modify {change : σ → σ} {post : Except Failure PUnit → σ → σ → Prop}
    (h : post (.ok ⟨⟩) (change s) (change t)) :
    (modify change : Act σ PUnit).Agrees root s t post := ⟨rfl, h⟩

theorem agrees_ofExcept_bind {answer : Except Error α} {f : α → Act σ β}
    (hok : ∀ a, answer = .ok a → (f a).Agrees root s t after)
    (herror : ∀ e, answer = .error e → after (.error (.error e)) s t) :
    (ofExcept answer >>= f).Agrees root s t after := by
  cases answer with
  | ok a => exact hok a rfl
  | error e => exact ⟨rfl, herror e rfl⟩

theorem agrees_ofAnswer_bind {answer : Except Failure α} {f : α → Act σ β}
    (hok : ∀ a, answer = .ok a → (f a).Agrees root s t after)
    (herror : ∀ e, answer = .error e → after (.error e) s t) :
    (ofAnswer answer >>= f).Agrees root s t after := by
  cases answer with
  | ok a => exact hok a rfl
  | error e => exact ⟨rfl, herror e rfl⟩

/-- Opening is looked at for operators that are not open. -/
theorem agrees_unless_isOpen (isOpen : σ → Bool) {x : Act σ Unit} (hs : isOpen s = false)
    (ht : isOpen t = false) {after : Except Failure Unit → σ → σ → Prop}
    (h : x.Agrees root s t after) :
    (do unless isOpen (← get) do x : Act σ Unit).Agrees root s t after := by
  have hopens : ∀ u, isOpen u = false →
      (do unless isOpen (← get) do x : Act σ Unit).run root u = x.run root u := by
    intro u hu
    change (if isOpen u then pure () else x : Act σ Unit).run root u = x.run root u
    rw [if_neg (by simp [hu])]
  unfold Agrees at h ⊢
  rwa [hopens s hs, hopens t ht]

/-- Two failures of one kind that change nothing. -/
theorem Gives.agrees {a : α} {u v : σ} (hs : x.Gives root s a u) (ht : x.Gives root t a v)
    (h : post (.ok a) u v) : x.Agrees root s t post := by
  obtain ⟨hs, rfl⟩ := hs
  obtain ⟨ht, rfl⟩ := ht
  unfold Agrees
  rw [hs, ht]
  exact ⟨rfl, h⟩

theorem FailsIn.agrees {e : Failure} (hs : x.FailsIn root s e (· = s))
    (ht : x.FailsIn root t e (· = t)) (h : post (.error e) s t) : x.Agrees root s t post := by
  obtain ⟨hs, hstate⟩ := hs
  obtain ⟨ht, hstate'⟩ := ht
  unfold Agrees
  rw [hs, ht, hstate, hstate']
  exact ⟨rfl, h⟩

end Act

/-- What opening leaves of two states: one state if it succeeds, and two of a kind if it fails. -/
def EndsAlike {σ : Type} (R : σ → σ → Prop) : Except Failure Unit → σ → σ → Prop
  | .ok _, s, t => s = t
  | .error _, s, t => R s t

theorem EndsAlike.refl {σ : Type} {R : σ → σ → Prop} (hR : ∀ s, R s s)
    (answer : Except Failure Unit) (s : σ) : EndsAlike R answer s s := by
  cases answer with
  | ok => exact rfl
  | error => exact hR s

namespace Cursor

variable {σ : Type}

/-- Whether an operator is opened and closed alike from states that are related. -/
structure OpensAlike (c : Cursor σ) (R : σ → σ → Prop) : Prop where
  refl : ∀ s, R s s
  openUp : ∀ root s t, R s t → c.openUp.Agrees root s t (EndsAlike R)
  close : ∀ root s t, R s t → c.close.Agrees root s t fun _ => R

/-- Whether an operator does all calls alike from states that are related. -/
structure ActsAlike (c : Cursor σ) (R : σ → σ → Prop) : Prop extends c.OpensAlike R where
  next : ∀ root s t, R s t → c.next.Agrees root s t fun _ => R

theorem opensAlike_eq (c : Cursor σ) : c.OpensAlike Eq where
  refl _ := rfl
  openUp root s t h := by
    subst h
    exact .refl (.refl fun _ => rfl)
  close root s t h := by
    subst h
    exact .refl fun _ _ => rfl

/-- It is enough to look at the states that differ. -/
theorem ActsAlike.of_reflGen {c : Cursor σ} {Q : σ → σ → Prop}
    (openUp : ∀ root s t, Q s t → c.openUp.Agrees root s t (EndsAlike (Relation.ReflGen Q)))
    (next : ∀ root s t, Q s t → c.next.Agrees root s t fun _ => Relation.ReflGen Q)
    (close : ∀ root s t, Q s t → c.close.Agrees root s t fun _ => Relation.ReflGen Q) :
    c.ActsAlike (Relation.ReflGen Q) where
  refl _ := .refl
  openUp root s t h := by
    cases h with
    | refl => exact .refl (.refl fun _ => .refl)
    | single h => exact openUp root s t h
  close root s t h := by
    cases h with
    | refl => exact .refl fun _ _ => .refl
    | single h => exact close root s t h
  next root s t h := by
    cases h with
    | refl => exact .refl fun _ _ => .refl
    | single h => exact next root s t h

theorem ActsAlike.events_eq {c : Cursor σ} {R : σ → σ → Prop} (h : c.ActsAlike R) (root : TempRoot)
    {s t : σ} (hst : R s t) (calls : List Call) : c.events root s calls = c.events root t calls := by
  induction calls generalizing s t with
  | nil => rfl
  | cons call calls ih =>
    have hstep : (c.respond root s call).1 = (c.respond root t call).1 ∧
        R (c.respond root s call).2 (c.respond root t call).2 := by
      cases call with
      | openUp =>
        obtain ⟨hanswer, hstates⟩ := h.openUp root s t hst
        refine ⟨congrArg Event.opened hanswer, ?_⟩
        cases hfound : (c.openUp.run root s).answer with
        | ok a =>
          rw [hfound] at hstates
          have hsame : (c.openUp.run root s).state = (c.openUp.run root t).state := hstates
          rw [respond, respond, hsame]
          exact h.refl _
        | error e =>
          rw [hfound] at hstates
          exact hstates
      | next =>
        obtain ⟨hanswer, hstates⟩ := h.next root s t hst
        exact ⟨congrArg Event.paged hanswer, hstates⟩
      | close =>
        obtain ⟨hanswer, hstates⟩ := h.close root s t hst
        exact ⟨congrArg Event.closed hanswer, hstates⟩
    rw [events, events, hstep.1, ih hstep.2]

/-- The operator as it would be if it began in this state. -/
def startingAt (c : Cursor σ) (s : σ) : Cursor σ := { c with start := s }

/-- Where an operator begins does not matter once it is in some state. -/
theorem events_startingAt (c : Cursor σ) (start : σ) (root : TempRoot) (s : σ) (calls : List Call) :
    (c.startingAt start).events root s calls = c.events root s calls := by
  induction calls generalizing s with
  | nil => rfl
  | cons call calls ih =>
    have hstep : (c.startingAt start).respond root s call = c.respond root s call := by
      cases call <;> rfl
    rw [events, events, hstep, ih]

/-- Whether an operator in a state answers all calls to come as one that is new. -/
def AnswersAs (c : Cursor σ) (s : σ) (new : Cursor σ) : Prop :=
  ∀ root calls, c.events root s calls = new.events root new.start calls

theorem ActsAlike.answersAs {c : Cursor σ} {R : σ → σ → Prop} (h : c.ActsAlike R) {s start : σ}
    (hs : R s start) : c.AnswersAs s (c.startingAt start) := by
  intro root calls
  rw [events_startingAt]
  exact h.events_eq root hs calls

/-- Whether an operator gives no pages before it is opened. -/
def IsShut (c : Cursor σ) (s : σ) : Prop :=
  ∀ root, c.next.FailsIn root s (.error .notOpen) (· = s)

end Cursor

namespace Project

variable {σ : Type} {child : Cursor σ} {R : σ → σ → Prop} {s t : State σ}

theorem isShut (pageSize : Nat) (fields : List Nat) (hs : s.isOpen = false) :
    (cursor pageSize fields child).IsShut s :=
  fun _ => Act.failsIn_notOpen State.isOpen hs

/-- Closed projections over related places of the child. -/
structure ClosedAlike (R : σ → σ → Prop) (s t : State σ) : Prop where
  left : s.isOpen = false
  right : t.isOpen = false
  child : R s.child t.child

theorem actsAlike (pageSize : Nat) (fields : List Nat) (h : child.OpensAlike R) :
    (cursor pageSize fields child).ActsAlike (Relation.ReflGen (ClosedAlike R)) := by
  refine .of_reflGen ?_ ?_ ?_
  · intro root s t hst
    refine Act.agrees_unless_isOpen State.isOpen hst.left hst.right ?_
    refine Act.agrees_ofAnswer_bind (fun capacity _ => ?_) fun _ _ => .single hst
    refine Act.agrees_modify_bind (Act.Agrees.within_bind (h.openUp root _ _ hst.child) ?_ ?_)
    · intro _ c d hchild
      exact .single ⟨hst.left, hst.right, hchild⟩
    · rintro _ c d (rfl : c = d)
      refine Act.agrees_modify ?_
      rfl
  · intro root s t hst
    exact (isShut pageSize fields hst.left root).agrees (isShut pageSize fields hst.right root)
      (.single hst)
  · intro root s t hst
    refine Act.agrees_modify_bind (Act.agrees_within.mpr ((h.close root _ _ hst.child).mono ?_))
    intro _ c d hchild
    exact .single ⟨rfl, rfl, hchild⟩

theorem cursor_startingAt (pageSize : Nat) (fields : List Nat) (child : Cursor σ) (c : σ) :
    cursor pageSize fields (child.startingAt c) =
      (cursor pageSize fields child).startingAt ⟨c, false, 0, []⟩ := rfl

theorem answersAs_of_closed (pageSize : Nat) (fields : List Nat) (h : child.OpensAlike R)
    (hs : s.isOpen = false) {c : σ} (hc : R s.child c) :
    (cursor pageSize fields child).AnswersAs s (cursor pageSize fields (child.startingAt c)) := by
  rw [cursor_startingAt]
  exact (actsAlike pageSize fields h).answersAs (.single ⟨hs, rfl, hc⟩)

end Project

namespace MergeSort

variable {σ : Type} {spec : SortSpec} {child : Cursor σ} {R : σ → σ → Prop} {root : TempRoot}
  {s t : State σ}

/-- A sort without runs. What its buffers were used for is still known. -/
def emptied (child : σ) (isOpen : Bool) (capacity : Nat) (stats : SortStats) : State σ :=
  ⟨child, isOpen, capacity, ⟨none, [], stats⟩, none⟩

/-- Closed sorts over related places of the child. -/
inductive ClosedAlike (R : σ → σ → Prop) : State σ → State σ → Prop
  | mk {c d : σ} (capacity capacity' : Nat) (stats stats' : SortStats) (hchild : R c d) :
    ClosedAlike R (emptied c false capacity stats) (emptied d false capacity' stats')

theorem isShut (spec : SortSpec) (child : Cursor σ) (hs : s.isOpen = false) :
    (cursor spec child).IsShut s :=
  fun _ => Act.failsIn_notOpen State.isOpen hs

/-- What a sort makes of its input depends on where its child is only. -/
theorem agrees_sortOrRelease (hR : ∀ c, R c c) (spec : SortSpec) (child : Cursor σ)
    (root : TempRoot) (c : σ) (capacity : Nat) (stats stats' : SortStats) :
    (sortOrRelease spec child capacity).Agrees root (emptied c false capacity stats)
      (emptied c false capacity stats') (EndsAlike (Relation.ReflGen (ClosedAlike R))) := by
  cases hfolder : root.makeFolder? (spec.label ++ "-sort-") with
  | none =>
    have hfails (stats : SortStats) : (sortOrRelease spec child capacity).FailsIn root
        (emptied c false capacity stats) (.error .io) (· = emptied c false capacity stats) := by
      refine (failsIn_sortOrRelease (failsIn_sortInput_of_none hfolder)).mono ?_
      rintro t ⟨u, rfl, rfl⟩
      rfl
    exact (hfails stats).agrees (hfails stats') (.single (.mk _ _ _ _ (hR c)))
  | some folder =>
    have hinput (stats : SortStats) :
        (sortInput spec child capacity).run root (emptied c false capacity stats) =
          (sortInto spec child capacity).run root
            ⟨c, false, capacity, RunSet.fresh folder, none⟩ := by
      rw [sortInput, Act.run_bind, Act.run_tempRoot]
      simp only [hfolder]
      rfl
    have hsame : (sortInput spec child capacity).Agrees root (emptied c false capacity stats)
        (emptied c false capacity stats') fun _ => Eq := by
      unfold Act.Agrees
      rw [hinput, hinput]
      exact ⟨rfl, rfl⟩
    refine hsame.attempt_bind ?_
    rintro (f | _) u _ rfl
    · exact .refl (.refl fun _ => .refl)
    · exact Act.agrees_modify rfl

theorem actsAlike (spec : SortSpec) (h : child.OpensAlike R) :
    (cursor spec child).ActsAlike (Relation.ReflGen (ClosedAlike R)) := by
  refine .of_reflGen ?_ ?_ ?_
  · rintro root _ _ ⟨n, n', stats, stats', hchild⟩
    refine Act.agrees_unless_isOpen State.isOpen rfl rfl ?_
    refine Act.agrees_ofExcept_bind (fun _ _ => ?_) fun _ _ => .single (.mk _ _ _ _ hchild)
    refine Act.agrees_ofAnswer_bind (fun capacity _ => ?_) fun _ _ => .single (.mk _ _ _ _ hchild)
    refine Act.agrees_modify_bind ?_
    refine Act.agrees_ofExcept_bind (fun _ _ => ?_) fun _ _ => .single (.mk _ _ _ _ hchild)
    refine Act.Agrees.within_bind (h.openUp root _ _ hchild) ?_ ?_
    · intro _ c d hfailed
      exact .single (.mk _ _ _ _ hfailed)
    · rintro _ c d (rfl : c = d)
      exact agrees_sortOrRelease h.refl spec child root c capacity stats stats'
  · rintro root _ _ ⟨n, n', stats, stats', hchild⟩
    exact (isShut spec child rfl root).agrees (isShut spec child rfl root)
      (.single (.mk _ _ _ _ hchild))
  · rintro root _ _ ⟨n, n', stats, stats', hchild⟩
    have hrelease : release.Agrees root (emptied _ false n stats) (emptied _ false n' stats')
        fun _ => ClosedAlike R := gives_release.agrees gives_release (.mk n n' stats stats' hchild)
    refine hrelease.bind (fun _ _ _ => .single) ?_
    rintro _ _ _ ⟨n, n', stats, stats', hchild⟩
    refine Act.Agrees.within_bind (h.close root _ _ hchild) ?_ ?_
    · intro _ c d hclosed
      exact .single (.mk _ _ _ _ hclosed)
    · intro _ c d hclosed
      exact Act.agrees_modify (.single (.mk _ _ _ _ hclosed))

theorem takePages_startingAt (spec : SortSpec) (child : Cursor σ) (d : σ) (capacity steps : Nat)
    (blockAndPage : Block × Draft) :
    takePages spec (child.startingAt d) capacity steps blockAndPage =
      takePages spec child capacity steps blockAndPage := by
  induction steps generalizing blockAndPage with
  | zero => rfl
  | succ steps ih =>
    simp only [takePages, ih]
    rfl

theorem cursor_startingAt (spec : SortSpec) (child : Cursor σ) (d : σ) :
    cursor spec (child.startingAt d) = (cursor spec child).startingAt (emptied d false 0 {}) := by
  simp only [cursor, openUp, sortOrRelease, sortInput, generateRuns, takePages_startingAt]
  rfl

/-- A closed sort without runs is as good as a new one. -/
theorem answersAs_of_emptied (spec : SortSpec) (h : child.OpensAlike R) {c d : σ} (hc : R c d)
    (capacity : Nat) (stats : SortStats) :
    (cursor spec child).AnswersAs (emptied c false capacity stats)
      (cursor spec (child.startingAt d)) := by
  rw [cursor_startingAt]
  exact (actsAlike spec h).answersAs (.single (.mk _ _ _ _ hc))

/-- Closing a sort deletes its runs in any case. It stays open only if it was and its child has
failed to close. -/
theorem ensures_close_emptied (child : Cursor σ) (root : TempRoot) (s : State σ) :
    (close child).Ensures root s fun answer t =>
      t = emptied t.child t.isOpen s.capacity s.work.stats ∧
      child.close.Ensures root s.child (fun closed c => answer = closed ∧ t.child = c) ∧
      (t.isOpen = true ↔ s.isOpen = true ∧ ∃ f, answer = .error f) := by
  have hchild : child.close.Ensures root s.child fun answer c =>
      child.close.Ensures root s.child fun closed d => answer = closed ∧ c = d := ⟨rfl, rfl⟩
  refine gives_release.bind_ensures (Act.Ensures.within_bind hchild ?_ ?_)
  · intro f c hclosed
    exact ⟨rfl, hclosed, fun hopen => ⟨hopen, f, rfl⟩, fun hopen => hopen.1⟩
  · intro _ c hclosed
    refine Act.ensures_modify.mpr ⟨rfl, hclosed, fun hopen => (by cases hopen), ?_⟩
    rintro ⟨-, f, h⟩
    cases h

end MergeSort

namespace Distinct

variable {σ : Type} {sort : Cursor σ} {R : σ → σ → Prop} {root : TempRoot} {s t : State σ}

theorem isShut (pageSize : Nat) (sort : Cursor σ) (hs : s.isOpen = false) :
    (overSorted pageSize sort).IsShut s :=
  fun _ => Act.failsIn_notOpen State.isOpen hs

/-- Closed duplicate eliminations over related places of the sort. -/
structure ClosedAlike (R : σ → σ → Prop) (s t : State σ) : Prop where
  left : s.isOpen = false
  right : t.isOpen = false
  sort : R s.sort t.sort

theorem actsAlike (pageSize : Nat) (h : sort.OpensAlike R) :
    (overSorted pageSize sort).ActsAlike (Relation.ReflGen (ClosedAlike R)) := by
  refine .of_reflGen ?_ ?_ ?_
  · intro root s t hst
    refine Act.agrees_unless_isOpen State.isOpen hst.left hst.right ?_
    refine Act.agrees_ofAnswer_bind (fun capacity _ => ?_) fun _ _ => .single hst
    refine Act.agrees_modify_bind (Act.Agrees.within_bind (h.openUp root _ _ hst.sort) ?_ ?_)
    · intro _ c d hsort
      exact .single ⟨hst.left, hst.right, hsort⟩
    · rintro _ c d (rfl : c = d)
      refine Act.agrees_modify ?_
      rfl
  · intro root s t hst
    exact (isShut pageSize sort hst.left root).agrees (isShut pageSize sort hst.right root)
      (.single hst)
  · intro root s t hst
    refine Act.agrees_modify_bind (Act.agrees_within.mpr ((h.close root _ _ hst.sort).mono ?_))
    intro _ c d hsort
    exact .single ⟨rfl, rfl, hsort⟩

theorem answersAs_of_closed (pageSize : Nat) (h : sort.OpensAlike R) (hs : s.isOpen = false) {c : σ}
    (hc : R s.sort c) :
    (overSorted pageSize sort).AnswersAs s (overSorted pageSize (sort.startingAt c)) := by
  have hstart : overSorted pageSize (sort.startingAt c) =
      (overSorted pageSize sort).startingAt ⟨c, false, 0, none, []⟩ := rfl
  rw [hstart]
  exact (actsAlike pageSize h).answersAs (.single ⟨hs, rfl, hc⟩)

theorem answersAs_of_emptied {child : Cursor σ} {s : State (MergeSort.State σ)}
    (pageSize numBuffers : Nat) (h : child.OpensAlike R) (hs : s.isOpen = false) {c d : σ}
    (hc : R c d) {capacity : Nat} {stats : SortStats}
    (hsort : s.sort = MergeSort.emptied c false capacity stats) :
    (cursor pageSize numBuffers child).AnswersAs s
      (cursor pageSize numBuffers (child.startingAt d)) := by
  have hstart : cursor pageSize numBuffers (child.startingAt d) = overSorted pageSize
      ((MergeSort.cursor (sortSpec pageSize numBuffers child.schema) child).startingAt
        (MergeSort.emptied d false 0 {})) := by
    rw [cursor, MergeSort.cursor_startingAt]
    rfl
  rw [hstart]
  refine answersAs_of_closed pageSize (MergeSort.actsAlike _ h).toOpensAlike hs ?_
  rw [hsort]
  exact .single (.mk _ _ _ _ hc)

end Distinct

namespace Aggregate

variable {σ : Type} {child : Cursor σ} {R : σ → σ → Prop} {root : TempRoot} {s t : State σ}
  {columns : List AggregateColumn}

/-- An aggregation that is closed and holds nothing. -/
def emptied (child : σ) (capacity : Nat) : State σ :=
  ⟨child, false, capacity, none, none, [], [], 0, false⟩

/-- Closed aggregations over related places of the child. -/
inductive ClosedAlike (R : σ → σ → Prop) : State σ → State σ → Prop
  | mk {c d : σ} (capacity capacity' : Nat) (hchild : R c d) :
    ClosedAlike R (emptied c capacity) (emptied d capacity')

theorem isShut (pageSize : Nat) (columns : List AggregateColumn) (child : Cursor σ)
    (hs : s.isOpen = false) : (cursor pageSize columns child).IsShut s := by
  intro root
  apply Act.ensures_get_bind.mpr
  rw [if_pos (by simp [hs])]
  exact ⟨rfl, rfl⟩

theorem actsAlike (pageSize : Nat) (columns : List AggregateColumn) (h : child.OpensAlike R) :
    (cursor pageSize columns child).ActsAlike (Relation.ReflGen (ClosedAlike R)) := by
  refine .of_reflGen ?_ ?_ ?_
  · rintro root _ _ ⟨n, n', hchild⟩
    refine Act.agrees_unless_isOpen State.isOpen rfl rfl ?_
    refine Act.agrees_ofExcept_bind (fun _ _ => ?_) fun _ _ => .single (.mk _ _ hchild)
    refine Act.agrees_ofAnswer_bind (fun capacity _ => ?_) fun _ _ => .single (.mk _ _ hchild)
    refine Act.agrees_ofAnswer_bind (fun spoolCapacity _ => ?_) fun _ _ => .single (.mk _ _ hchild)
    refine Act.agrees_modify_bind (Act.Agrees.within_bind (h.openUp root _ _ hchild) ?_ ?_)
    · intro _ c d hfailed
      exact .single (.mk _ _ hfailed)
    · rintro _ c d (rfl : c = d)
      exact .refl (.refl fun _ => .refl)
  · rintro root _ _ ⟨n, n', hchild⟩
    exact (isShut pageSize columns child rfl root).agrees (isShut pageSize columns child rfl root)
      (.single (.mk _ _ hchild))
  · rintro root _ _ ⟨n, n', hchild⟩
    refine Act.agrees_modify_bind (Act.agrees_modify_bind ?_)
    refine Act.agrees_within.mpr ((h.close root _ _ hchild).mono ?_)
    intro _ c d hclosed
    exact .single (.mk _ _ hclosed)

theorem takePages_startingAt (child : Cursor σ) (d : σ) (steps : Nat) (intake : Intake) :
    takePages (child.startingAt d) steps intake = takePages child steps intake := by
  induction steps generalizing intake with
  | zero => rfl
  | succ steps ih =>
    simp only [takePages, ih]
    rfl

theorem cursor_startingAt (pageSize : Nat) (columns : List AggregateColumn) (child : Cursor σ)
    (d : σ) : cursor pageSize columns (child.startingAt d) =
      (cursor pageSize columns child).startingAt (emptied d 0) := by
  simp only [cursor, openUp, consume, takePages_startingAt]
  rfl

theorem answersAs_of_emptied (pageSize : Nat) (columns : List AggregateColumn)
    (h : child.OpensAlike R) {c d : σ} (hc : R c d) (capacity : Nat) :
    (cursor pageSize columns child).AnswersAs (emptied c capacity)
      (cursor pageSize columns (child.startingAt d)) := by
  rw [cursor_startingAt]
  exact (actsAlike pageSize columns h).answersAs (.single (.mk _ _ hc))

theorem ensures_close_emptied (child : Cursor σ) (root : TempRoot) (s : State σ) :
    (close child).Ensures root s fun _ t => t = emptied t.child s.capacity := by
  refine Act.ensures_modify_bind.mpr (Act.ensures_modify_bind.mpr (Act.ensures_within.mpr ?_))
  exact rfl

end Aggregate

namespace Join

variable {σ τ : Type} {left : Cursor σ} {right : Cursor τ} {L : σ → σ → Prop} {R : τ → τ → Prop}
  {root : TempRoot} {keys : Keys} {s t : State σ τ}

theorem isShut (pageSize numBuffers : Nat) (keys : Keys) (left : Cursor σ) (right : Cursor τ)
    (hs : s.isOpen = false) : (overSorted pageSize numBuffers keys left right).IsShut s := by
  intro root
  apply Act.ensures_get_bind.mpr
  rw [if_pos (by simp [hs])]
  exact ⟨rfl, rfl⟩

/-- Closed joins over related places of both inputs. -/
structure ClosedAlike (L : σ → σ → Prop) (R : τ → τ → Prop) (s t : State σ τ) : Prop where
  first : ∃ capacity, phase s = (false, false, capacity)
  second : ∃ capacity, phase t = (false, false, capacity)
  left : L s.left.source t.left.source
  right : R s.right.source t.right.source

theorem ClosedAlike.isOpen (h : ClosedAlike L R s t) : s.isOpen = false ∧ t.isOpen = false := by
  obtain ⟨⟨_, hs⟩, ⟨_, ht⟩, -, -⟩ := h
  exact ⟨congrArg Prod.fst hs, congrArg Prod.fst ht⟩

theorem ClosedAlike.withLeft {L' : σ → σ → Prop} (h : ClosedAlike L R s t) {c d : σ}
    (hc : L' c d) : ClosedAlike L' R { s with left := { s.left with source := c } }
      { t with left := { t.left with source := d } } :=
  ⟨h.first, h.second, hc, h.right⟩

theorem ClosedAlike.withRight {R' : τ → τ → Prop} (h : ClosedAlike L R s t) {c d : τ}
    (hc : R' c d) : ClosedAlike L R' { s with right := { s.right with source := c } }
      { t with right := { t.right with source := d } } :=
  ⟨h.first, h.second, h.left, hc⟩

theorem ClosedAlike.withCapacity (h : ClosedAlike L R s t) (capacity : Nat) :
    ClosedAlike L R { s with capacity } { t with capacity } := by
  obtain ⟨⟨n, hs⟩, ⟨m, ht⟩, hleft, hright⟩ := h
  simp only [phase, Prod.mk.injEq] at hs ht
  exact ⟨⟨capacity, by simp [phase, hs]⟩, ⟨capacity, by simp [phase, ht]⟩, hleft, hright⟩

/-- Closed joins with one capacity over the same places are the same once they are reset. -/
theorem ClosedAlike.reset_eq (h : ClosedAlike Eq Eq s t) (hcapacity : s.capacity = t.capacity) :
    reset s = reset t := by
  obtain ⟨⟨_, hs⟩, ⟨_, ht⟩, hleft, hright⟩ := h
  rcases s with ⟨⟨_, _, _⟩, ⟨_, _, _⟩, _, _, _, _, _⟩
  rcases t with ⟨⟨_, _, _⟩, ⟨_, _, _⟩, _, _, _, _, _⟩
  simp only [phase, Prod.mk.injEq] at hs ht hleft hright hcapacity
  obtain ⟨rfl, rfl, rfl⟩ := hs
  obtain ⟨rfl, rfl, rfl⟩ := ht
  subst hleft hright hcapacity
  rfl

theorem ClosedAlike.withReset (h : ClosedAlike L R s t) :
    ClosedAlike L R (reset s) (reset t) :=
  ⟨h.first, h.second, h.left, h.right⟩

theorem agrees_onLeft {x : Act σ Unit} {post : Except Failure Unit → State σ τ → State σ τ → Prop}
    {L' : Except Failure Unit → σ → σ → Prop} (h : ClosedAlike L R s t)
    (hx : x.Agrees root s.left.source t.left.source L')
    (hpost : ∀ answer u v, ClosedAlike (L' answer) R u v → u.capacity = s.capacity →
      v.capacity = t.capacity → post answer u v) :
    (onLeft (Side.onSource x)).Agrees root s t post :=
  ⟨hx.1, hpost _ _ _ (h.withLeft hx.2) rfl rfl⟩

theorem agrees_onRight {x : Act τ Unit} {post : Except Failure Unit → State σ τ → State σ τ → Prop}
    {R' : Except Failure Unit → τ → τ → Prop} (h : ClosedAlike L R s t)
    (hx : x.Agrees root s.right.source t.right.source R')
    (hpost : ∀ answer u v, ClosedAlike L (R' answer) u v → u.capacity = s.capacity →
      v.capacity = t.capacity → post answer u v) :
    (onRight (Side.onSource x)).Agrees root s t post :=
  ⟨hx.1, hpost _ _ _ (h.withRight hx.2) rfl rfl⟩

theorem actsAlike (pageSize numBuffers : Nat) (keys : Keys) (hleft : left.OpensAlike L)
    (hright : right.OpensAlike R) :
    (overSorted pageSize numBuffers keys left right).ActsAlike
      (Relation.ReflGen (ClosedAlike L R)) := by
  refine .of_reflGen ?_ ?_ ?_
  · intro root s t hst
    refine Act.agrees_unless_isOpen State.isOpen hst.isOpen.1 hst.isOpen.2 ?_
    refine Act.agrees_ofExcept_bind (fun _ _ => ?_) fun _ _ => .single hst
    refine Act.agrees_ofAnswer_bind (fun capacity _ => ?_) fun _ _ => .single hst
    refine Act.agrees_modify_bind ?_
    replace hst := hst.withCapacity capacity
    have hopened := agrees_onLeft hst (hleft.openUp root _ _ hst.left)
      fun answer u v h hu hv => (⟨h, hu.trans hv.symm⟩ : ClosedAlike (EndsAlike L answer) R u v ∧
        u.capacity = v.capacity)
    refine hopened.bind (fun _ _ _ h => .single h.1) ?_
    rintro _ u v ⟨huv, hcapacity⟩
    have hopened := agrees_onRight huv (hright.openUp root _ _ huv.right)
      fun answer u' v' h hu hv => (⟨h, hu.trans (hcapacity.trans hv.symm)⟩ :
        ClosedAlike Eq (EndsAlike R answer) u' v' ∧ u'.capacity = v'.capacity)
    refine hopened.attempt_bind ?_
    rintro (f | _) u v ⟨huv, hcapacity⟩
    · have hsame : left.close.Agrees root u.left.source v.left.source fun _ => L := by
        rw [huv.left]
        exact .refl fun _ _ => hleft.refl _
      refine (agrees_onLeft huv hsame fun _ _ _ h _ _ => h).attempt_bind ?_
      intro _ u v huv
      exact ⟨rfl, .single huv⟩
    · refine Act.agrees_modify_bind ?_
      rw [huv.reset_eq hcapacity]
      exact .refl (.refl fun _ => .refl)
  · intro root s t hst
    exact (isShut pageSize numBuffers keys left right hst.isOpen.1 root).agrees
      (isShut pageSize numBuffers keys left right hst.isOpen.2 root) (.single hst)
  · intro root s t hst
    refine Act.agrees_modify_bind ?_
    replace hst := hst.withReset
    refine (agrees_onLeft hst (hleft.close root _ _ hst.left) fun _ _ _ h _ _ => h).attempt_bind ?_
    intro leftEnd u v huv
    refine (agrees_onRight huv (hright.close root _ _ huv.right)
      fun _ _ _ h _ _ => h).attempt_bind ?_
    intro rightEnd u v huv
    refine Act.agrees_modify_bind ?_
    have hends : ClosedAlike L R { u with isOpen := false, isAtEnd := false }
        { v with isOpen := false, isAtEnd := false } :=
      ⟨⟨_, rfl⟩, ⟨_, rfl⟩, huv.left, huv.right⟩
    rcases leftEnd with f | _
    · exact ⟨rfl, .single hends⟩
    · rcases rightEnd with f | _
      · exact ⟨rfl, .single hends⟩
      · exact ⟨rfl, .single hends⟩

theorem overSorted_startingAt (pageSize numBuffers : Nat) (keys : Keys) (left : Cursor σ)
    (right : Cursor τ) (c : σ) (d : τ) :
    overSorted pageSize numBuffers keys (left.startingAt c) (right.startingAt d) =
      (overSorted pageSize numBuffers keys left right).startingAt
        ⟨⟨c, none, 0⟩, ⟨d, none, 0⟩, false, 0, [], none, false⟩ := by
  have hstep : step keys (left.startingAt c) (right.startingAt d) = step keys left right :=
    step_congr ⟨rfl, rfl⟩ ⟨rfl, rfl⟩
  have hnext : next keys (left.startingAt c) (right.startingAt d) = next keys left right := by
    simp only [next, hstep]
    rfl
  simp only [overSorted, hnext]
  rfl

theorem answersAs_of_closed (pageSize numBuffers : Nat) (keys : Keys) (hleft : left.OpensAlike L)
    (hright : right.OpensAlike R) (hs : ∃ capacity, phase s = (false, false, capacity)) {c : σ}
    {d : τ} (hc : L s.left.source c) (hd : R s.right.source d) :
    (overSorted pageSize numBuffers keys left right).AnswersAs s
      (overSorted pageSize numBuffers keys (left.startingAt c) (right.startingAt d)) := by
  rw [overSorted_startingAt]
  exact (actsAlike pageSize numBuffers keys hleft hright).answersAs
    (.single ⟨hs, ⟨0, rfl⟩, hc, hd⟩)

theorem answersAs_of_emptied {s : State (MergeSort.State σ) (MergeSort.State τ)}
    (pageSize numBuffers : Nat) (keys : Keys) (hleft : left.OpensAlike L)
    (hright : right.OpensAlike R) (hs : ∃ capacity, phase s = (false, false, capacity)) {c c' : σ}
    {d d' : τ} (hc : L c c') (hd : R d d') {n m : Nat} {stats stats' : SortStats}
    (hsl : s.left.source = MergeSort.emptied c false n stats)
    (hsr : s.right.source = MergeSort.emptied d false m stats') :
    (cursor pageSize numBuffers keys left right).AnswersAs s
      (cursor pageSize numBuffers keys (left.startingAt c') (right.startingAt d')) := by
  rw [cursor, cursor, MergeSort.cursor_startingAt, MergeSort.cursor_startingAt]
  refine answersAs_of_closed pageSize numBuffers keys (MergeSort.actsAlike _ hleft).toOpensAlike
    (MergeSort.actsAlike _ hright).toOpensAlike hs ?_ ?_
  · rw [hsl]
    exact .single (.mk _ _ _ _ hc)
  · rw [hsr]
    exact .single (.mk _ _ _ _ hd)

end Join

end PagedQuery
