import PagedQuery.Proofs.WorkingFolders
import PagedQuery.Proofs.SortMergeJoin

/-!
# The working folders of a join

A join closes both of its sorts when its output ends, while it stays open itself. Unless an input
has failed to close, their folders are gone from then on. `Cursor.watched` is an operator that also
remembers whether it has ever failed to close, and does the same otherwise.
-/

namespace PagedQuery

/-- Whether a call is one to close that fails. -/
def Event.failsToClose : Event → Bool
  | .closed (.error _) => true
  | _ => false

namespace Cursor

variable {σ : Type}

def onWatched {α : Type} (x : Act σ α) : Act (σ × Bool) α :=
  Act.within (·.1) (fun s t => (t, s.2)) x

/-- The operator with a flag that is set when it fails to close. -/
def watched (c : Cursor σ) : Cursor (σ × Bool) where
  schema := c.schema
  start := (c.start, false)
  openUp := onWatched c.openUp
  next := onWatched c.next
  close := do
    match ← Act.attempt (onWatched c.close) with
    | .ok () => pure ()
    | .error f =>
      modify fun s => (s.1, true)
      Act.abandon f
  volume s := c.volume s.1
  folders s := c.folders s.1
  volume_next root s := c.volume_next root s.1

/-- A watched operator answers as it does unwatched, and is in the same state but for the flag. -/
theorem respond_watched (c : Cursor σ) (root : TempRoot) (s : σ × Bool) (call : Call) :
    c.watched.respond root s call =
      ((c.respond root s.1 call).1, (c.respond root s.1 call).2,
        s.2 || (c.respond root s.1 call).1.failsToClose) := by
  rcases s with ⟨s, flag⟩
  cases call with
  | openUp => exact congrArg (fun flag => (_, _, flag)) (Bool.or_false flag).symm
  | next => exact congrArg (fun flag => (_, _, flag)) (Bool.or_false flag).symm
  | close =>
    rcases Act.gives_or_fails c.close root s with ⟨_, t, hclose⟩ | ⟨f, hclose⟩
    · have hchild : (onWatched c.close).Gives root (s, flag) () (t, flag) := hclose.within
      have hwatched : c.watched.close.Gives root (s, flag) () (t, flag) :=
        hchild.attempt.bind Act.gives_pure
      simp only [respond, hwatched.1, hwatched.2, hclose.1, hclose.2, Event.failsToClose,
        Bool.or_false]
    · have hfails : c.close.FailsIn root s f (· = (c.close.run root s).state) := ⟨hclose, rfl⟩
      have hchild : (onWatched c.close).FailsIn root (s, flag) f fun t =>
          ∃ u, u = (c.close.run root s).state ∧ t = (u, flag) := hfails.within
      obtain ⟨_, ⟨u, hu, rfl⟩, hattempt⟩ := hchild.exists_attempt
      have hwatched : c.watched.close.FailsIn root (s, flag) f (· = (u, true)) :=
        hattempt.bind_failsIn ((Act.gives_modify _).bind_failsIn ⟨rfl, rfl⟩)
      simp only [respond, hwatched.1, hwatched.2, hfails.1, hu, Event.failsToClose, Bool.or_true]

/-- Watching an operator shows whether one of the calls to close has failed. -/
theorem after_watched (c : Cursor σ) (root : TempRoot) (s : σ × Bool) (calls : List Call) :
    c.watched.events root s calls = c.events root s.1 calls ∧
      c.watched.after root s calls =
        (c.after root s.1 calls, s.2 || (c.events root s.1 calls).any Event.failsToClose) := by
  induction calls generalizing s with
  | nil => exact ⟨rfl, congrArg (Prod.mk s.1) (Bool.or_false s.2).symm⟩
  | cons call calls ih =>
    obtain ⟨hevents, hafter⟩ := ih (c.watched.respond root s call).2
    rw [respond_watched] at hevents hafter
    refine ⟨?_, ?_⟩
    · rw [events, events, respond_watched, hevents]
    · rw [after, List.foldl_cons, respond_watched]
      refine hafter.trans ?_
      rw [events, List.any_cons, Bool.or_assoc]
      rfl

theorem ensures_close_watched (c : Cursor σ) (root : TempRoot) (s : σ × Bool) :
    c.watched.close.Ensures root s fun answer t => ∀ f, answer = .error f → t.2 = true := by
  have hclose : (onWatched c.close).Ensures root s fun _ _ => True := trivial
  refine hclose.attempt_bind ?_
  rintro (f | _) t -
  · exact Act.ensures_modify_bind.mpr fun _ _ => rfl
  · exact Act.ensures_pure.mpr fun f h => by cases h

end Cursor

namespace Join

variable {σ τ : Type} {left : Cursor σ} {right : Cursor τ} {root : TempRoot} {keys : Keys}

/-- Whether a join is open, whether its output has ended, and the capacity of its pages. -/
def phase (s : State σ τ) : Bool × Bool × Nat := (s.isOpen, s.isAtEnd, s.capacity)

section Fixes

/-! The inner steps of a join leave its phase unchanged. -/

theorem fixes_onLeft {α : Type} (x : Act (Side σ) α) :
    (onLeft x : Act (State σ τ) α).Fixes phase := fun _ _ => rfl

theorem fixes_onRight {α : Type} (x : Act (Side τ) α) :
    (onRight x : Act (State σ τ) α).Fixes phase := fun _ _ => rfl

theorem fixes_extendBand (keys : Keys) (right : Cursor τ) (steps : Nat) :
    (extendBand keys right steps : Act (State σ τ) Unit).Fixes phase := by
  induction steps with
  | zero => exact Act.fixes_pure ()
  | succ steps ih =>
    intro root s
    apply Act.ensures_get_bind.mpr
    split
    · exact Act.ensures_pure.mpr rfl
    · refine Act.ensures_require_bind (fun first _ => ?_) fun _ => rfl
      refine Act.ensures_require_bind (fun order _ => ?_) fun _ => rfl
      split
      · apply Act.ensures_set_bind.mpr
        exact ((fixes_onRight _).bind fun _ => ih) root _
      · exact Act.ensures_pure.mpr rfl

theorem fixes_fillBand (keys : Keys) (right : Cursor τ) :
    (fillBand keys right : Act (State σ τ) Unit).Fixes phase := by
  intro root s
  apply Act.ensures_get_bind.mpr
  split
  · exact Act.ensures_fail.mpr rfl
  · apply Act.ensures_set_bind.mpr
    exact ((fixes_onRight _).bind fun _ => Act.fixes_get_bind fun _ =>
      fixes_extendBand keys right _) root _

theorem fixes_leaveBand (keys : Keys) (left : Cursor σ) :
    (leaveBand keys left : Act (State σ τ) Unit).Fixes phase := by
  refine Act.Fixes.bind (Act.fixes_modify fun _ => rfl) fun _ => (fixes_onLeft _).bind fun _ => ?_
  intro root s
  apply Act.ensures_get_bind.mpr
  split
  · exact Act.ensures_set.mpr rfl
  · refine Act.ensures_require_bind (fun first _ => ?_) fun _ => rfl
    refine Act.ensures_require_bind (fun order _ => ?_) fun _ => rfl
    split
    · exact Act.ensures_set.mpr rfl
    · exact Act.ensures_set.mpr rfl

theorem fixes_seekBand (keys : Keys) (left : Cursor σ) (right : Cursor τ) (l r : Row) :
    (seekBand keys left right l r : Act (State σ τ) Unit).Fixes phase := by
  refine (Act.fixes_require _).bind fun order => ?_
  cases order with
  | lt => exact fixes_onLeft _
  | gt => exact fixes_onRight _
  | eq => exact (fixes_fillBand keys right).bind fun _ => Act.fixes_modify fun _ => rfl

theorem fixes_step (keys : Keys) (left : Cursor σ) (right : Cursor τ) :
    (step keys left right : Act (State σ τ) Step).Fixes phase := by
  intro root s
  apply Act.ensures_get_bind.mpr
  split
  · split
    · split
      · exact Act.ensures_fail.mpr rfl
      · exact Act.ensures_set_bind.mpr (Act.ensures_pure.mpr rfl)
    · exact ((fixes_leaveBand keys left).bind fun _ => Act.fixes_pure _) root s
  · split
    · exact ((fixes_seekBand keys left right _ _).bind fun _ => Act.fixes_pure _) root s
    · exact Act.ensures_pure.mpr rfl

end Fixes

section Folders

/-- A sort of an input whose failures to close are watched. -/
abbrev WatchedSort (σ : Type) := MergeSort.State (σ × Bool)

/-- Whether the folders of both sorts are gone, or an input has failed to close. -/
def FoldersGone (s : State (WatchedSort σ) (WatchedSort τ)) : Prop :=
  s.left.source.child.2 = true ∨ s.right.source.child.2 = true ∨
    s.left.source.work.folder = none ∧ s.right.source.work.folder = none

/-- What a join is always like. The pages of an open join hold a row, and an end that has been
reached has not been forgotten. -/
structure IsTidy (s : State (WatchedSort σ) (WatchedSort τ)) : Prop where
  capacity_pos : s.isOpen = true → 0 < s.capacity
  isOpen : s.isAtEnd = true → s.isOpen = true
  foldersGone : s.isAtEnd = true → FoldersGone s

variable {s t : State (WatchedSort σ) (WatchedSort τ)} {capacity : Nat} {leftSpec rightSpec : SortSpec}

theorem isTidy_of_reading (hs : phase s = (true, false, capacity)) (hc : 0 < capacity) :
    IsTidy s := by
  simp only [phase, Prod.mk.injEq] at hs
  obtain ⟨-, hend, rfl⟩ := hs
  exact ⟨fun _ => hc, fun h => absurd (hend.symm.trans h) (by decide),
    fun h => absurd (hend.symm.trans h) (by decide)⟩

theorem isTidy_of_closed (hopen : s.isOpen = false) (hend : s.isAtEnd = false) : IsTidy s :=
  ⟨fun h => absurd (hopen.symm.trans h) (by decide), fun h => absurd (hend.symm.trans h) (by decide),
    fun h => absurd (hend.symm.trans h) (by decide)⟩

theorem ensures_finish_watched (hs : phase s = (true, false, capacity)) (hc : 0 < capacity) :
    (finish (MergeSort.cursor leftSpec left.watched)
      (MergeSort.cursor rightSpec right.watched)).Ensures root s fun _ t =>
      IsTidy t ∧ t.isAtEnd = true := by
  simp only [phase, Prod.mk.injEq] at hs
  obtain ⟨hopen, -, rfl⟩ := hs
  apply Act.ensures_modify_bind.mpr
  have hleft : (onLeft (Side.onSource (MergeSort.close left.watched))).Ensures root
      { reset s with isAtEnd := true } fun answer t =>
        (t.isOpen = true ∧ t.capacity = s.capacity ∧ t.isAtEnd = true) ∧
        (∀ f, answer = .error f → t.left.source.child.2 = true) ∧
        t.left.source.work.folder = none := by
    obtain ⟨hflag, hfolder, -⟩ :=
      MergeSort.ensures_close (left.ensures_close_watched root s.left.source.child)
    exact ⟨⟨hopen, rfl, rfl⟩, hflag, hfolder⟩
  refine hleft.bind ?_ ?_
  · rintro f t ⟨⟨ht, hcapacity, hend⟩, hflag, -⟩
    exact ⟨⟨fun _ => hcapacity ▸ hc, fun _ => ht, fun _ => .inl (hflag f rfl)⟩, hend⟩
  · rintro _ t ⟨⟨ht, hcapacity, hend⟩, -, hfolder⟩
    have hright := MergeSort.ensures_close
      (right.ensures_close_watched root t.right.source.child)
    refine Act.ensures_within.mpr (Act.ensures_within.mpr (hright.mono ?_))
    rintro answer u ⟨-, hfolder', -⟩
    exact ⟨⟨fun _ => hcapacity ▸ hc, fun _ => ht, fun _ => .inr (.inr ⟨hfolder, hfolder'⟩)⟩, hend⟩

/-- Opening a closed join leaves it open at the beginning of its output, or closed. -/
theorem ensures_openUp_phase {σ τ : Type} {left : Cursor σ} {right : Cursor τ} {s : State σ τ}
    (pageSize numBuffers : Nat) (hopen : s.isOpen = false) (hend : s.isAtEnd = false) :
    (openUp pageSize numBuffers left right).Ensures root s fun answer t => match answer with
      | .ok () => ∃ capacity, phase t = (true, false, capacity) ∧
        Schema.pageCapacity (left.schema ++ right.schema) pageSize = .ok capacity
      | .error _ => ∃ capacity, phase t = (false, false, capacity) := by
  have hs : phase s = (false, false, s.capacity) := by rw [phase, hopen, hend]
  apply Act.ensures_get_bind.mpr
  rw [if_neg (by simp [hopen])]
  refine Act.ensures_ofExcept_bind (fun _ _ => ?_) fun _ _ => ⟨_, hs⟩
  refine Act.ensures_ofAnswer_bind (fun capacity hcapacity => ?_) fun _ _ => ⟨_, hs⟩
  apply Act.ensures_modify_bind.mpr
  have hs : phase { s with capacity } = (false, false, capacity) := by
    rw [phase, hopen, hend]
  refine ((fixes_onLeft _).keeps hs).bind (fun _ _ ht => ⟨_, ht⟩) fun _ t ht => ?_
  refine ((fixes_onRight _).keeps ht).attempt_bind ?_
  rintro (f | _) t ht
  · exact ((fixes_onLeft _).keeps ht).attempt_bind fun _ _ hu => ⟨_, hu⟩
  · apply Act.ensures_modify_bind.mpr
    have hreset : phase (reset t) = (false, false, capacity) := ht
    refine ((fixes_onLeft _).keeps hreset).bind (fun _ _ hu => ⟨_, hu⟩) fun _ u hu => ?_
    refine ((fixes_onRight _).keeps hu).bind (fun _ _ hv => ⟨_, hv⟩) fun _ v hv => ?_
    simp only [phase, Prod.mk.injEq] at hv
    exact Act.ensures_modify.mpr ⟨capacity, by rw [phase, hv.2.2], hcapacity⟩

theorem ensures_openUp_of_closed {σ τ : Type} {left : Cursor σ} {right : Cursor τ}
    {s : State σ τ} (pageSize numBuffers : Nat) (hopen : s.isOpen = false)
    (hend : s.isAtEnd = false) :
    (openUp pageSize numBuffers left right).Ensures root s fun _ t =>
      t.isAtEnd = false ∧ (t.isOpen = true → 0 < t.capacity) := by
  refine (ensures_openUp_phase pageSize numBuffers hopen hend).mono ?_
  rintro (f | _) t ht
  · obtain ⟨capacity, ht⟩ := ht
    simp only [phase, Prod.mk.injEq] at ht
    exact ⟨ht.2.1, fun h => absurd (ht.1.symm.trans h) (by decide)⟩
  · obtain ⟨capacity, ht, hcapacity⟩ := ht
    simp only [phase, Prod.mk.injEq] at ht
    exact ⟨ht.2.1, fun _ => ht.2.2 ▸ (Schema.of_pageCapacity hcapacity).2⟩

/-- A page that is full is given out, as pages hold a row. -/
theorem nonempty?_ne_none {page : Batch} (hfull : page.isFull = true) (hc : 0 < page.capacity) :
    page.nonempty? ≠ none := by
  have hlength : page.capacity ≤ page.length := of_decide_eq_true hfull
  have hrows : page.rows ≠ [] := List.ne_nil_of_length_pos (Nat.lt_of_lt_of_le hc hlength)
  simp [Batch.nonempty?, Batch.isEmpty, hrows]

/-- The next page of a join: when there is none, its output has ended. -/
theorem ensures_next_watched (keys : Keys) (hs : IsTidy s) :
    (next keys (MergeSort.cursor leftSpec left.watched)
      (MergeSort.cursor rightSpec right.watched)).Ensures root s fun answer t =>
      IsTidy t ∧ (answer = .ok none → t.isAtEnd = true) := by
  apply Act.ensures_get_bind.mpr
  by_cases hopen : s.isOpen = true
  · rw [if_neg (by simp [hopen])]
    by_cases hend : s.isAtEnd = true
    · rw [if_pos hend]
      exact Act.ensures_pure.mpr ⟨hs, fun _ => hend⟩
    · rw [if_neg hend]
      have hc := hs.capacity_pos hopen
      have hreading : phase s = (true, false, s.capacity) := by
        simp only [phase, hopen, Bool.eq_false_iff.mpr hend]
      cases hreserve : Draft.reserve s.capacity with
      | error e => exact ⟨hs, fun h => by cases h⟩
      | ok page =>
        obtain rfl := Draft.eq_empty_of_reserve hreserve
        refine (gather_keeps (fun _ ht => (fixes_step keys _ _).keeps ht) .joinOutput
          (steps _ _ s) (Draft.empty s.capacity) hreading).bind ?_ ?_
        · rintro f t ⟨ht, -⟩
          exact ⟨isTidy_of_reading ht hc, fun h => by cases h⟩
        · rintro page t ⟨ht, hcapacity⟩
          have hpage : page.capacity = s.capacity := (hcapacity page rfl).1
          by_cases hfull : page.isFull = true
          · rw [if_pos hfull]
            refine Act.ensures_pure.mpr ⟨isTidy_of_reading ht hc, fun h => ?_⟩
            exact absurd (Except.ok.inj h) (nonempty?_ne_none hfull (hpage ▸ hc))
          · rw [if_neg hfull]
            refine (ensures_finish_watched ht hc).bind ?_ ?_
            · rintro f u ⟨hu, -⟩
              exact ⟨hu, fun h => by cases h⟩
            · rintro _ u ⟨hu, hend⟩
              exact Act.ensures_pure.mpr ⟨hu, fun _ => hend⟩
  · rw [if_pos (by simp [hopen])]
    exact Act.ensures_fail.mpr ⟨hs, fun h => by cases h⟩

theorem isTidy_start (pageSize numBuffers : Nat) (keys : Keys) (left : Cursor σ)
    (right : Cursor τ) :
    IsTidy (cursor pageSize numBuffers keys left.watched right.watched).start :=
  isTidy_of_closed rfl rfl

theorem keeps_isTidy (pageSize numBuffers : Nat) (keys : Keys) (left : Cursor σ)
    (right : Cursor τ) (root : TempRoot) :
    (cursor pageSize numBuffers keys left.watched right.watched).Keeps root IsTidy where
  openUp s hs := by
    by_cases hopen : s.isOpen = true
    · apply Act.ensures_get_bind.mpr
      rw [if_pos hopen]
      exact Act.ensures_pure.mpr hs
    · have hend : s.isAtEnd = false := Bool.eq_false_iff.mpr fun h => hopen (hs.isOpen h)
      refine (ensures_openUp_of_closed pageSize numBuffers (Bool.eq_false_iff.mpr hopen)
        hend).mono ?_
      rintro _ t ⟨ht, hc⟩
      exact ⟨hc, fun h => absurd (ht.symm.trans h) (by decide),
        fun h => absurd (ht.symm.trans h) (by decide)⟩
  next s hs := (ensures_next_watched keys hs).mono fun _ _ ht => ht.1
  close s _ := by
    refine (ensures_close (P := fun _ => True) (Q := fun _ => True) trivial trivial).mono ?_
    rintro _ t ⟨-, -, hopen, hend⟩
    exact isTidy_of_closed hopen hend

end Folders

end Join

/-- No folder outlives the operator that made it. Whatever the sources of a plan answer, nothing is
left once it has been closed. A sort or an aggregation that fails to open has no folder, and a sort
that was closed and opens has a folder with its final run alone, if its label does not lead out of
there. A join has deleted the folders of its sorts when it has no page left, unless an input has
failed to close, which watching the inputs shows. -/
theorem Plan.deletes_folders :
    (∀ (plan : Plan) (root : TempRoot) (calls : List Call),
      plan.cursor.folders
        (plan.cursor.after root plan.cursor.start (calls ++ [.close])) = []) ∧
    (∀ {σ : Type} (spec : SortSpec) (child : Cursor σ) (root : TempRoot) (calls : List Call),
      let sort := MergeSort.cursor spec child
      let s := sort.after root sort.start calls
      sort.openUp.Ensures root s fun answer t =>
        (∀ f, answer = .error f → t.work.folder = none) ∧
        (answer = .ok () → s.isOpen = false → MergeSort.HoldsFinalRun spec t)) ∧
    (∀ {σ : Type} (pageSize : Nat) (columns : List AggregateColumn) (child : Cursor σ)
        (root : TempRoot) (calls : List Call),
      let aggregate := Aggregate.cursor pageSize columns child
      aggregate.openUp.Ensures root (aggregate.after root aggregate.start calls)
        fun answer t => ∀ f, answer = .error f → t.folder = none) ∧
    (∀ {σ τ : Type} (pageSize numBuffers : Nat) (keys : Join.Keys) (left : Cursor σ)
        (right : Cursor τ) (root : TempRoot) (calls : List Call),
      let join := Join.cursor pageSize numBuffers keys left.watched right.watched
      join.next.Ensures root (join.after root join.start calls)
        fun answer t => answer = .ok none →
          t.left.source.child.2 = false → t.right.source.child.2 = false →
          t.left.source.work.folder = none ∧ t.right.source.work.folder = none) ∧
    ∀ {σ : Type} (child : Cursor σ) (root : TempRoot) (s : σ × Bool) (calls : List Call),
      child.watched.events root s calls = child.events root s.1 calls ∧
      child.watched.after root s calls = (child.after root s.1 calls,
        s.2 || (child.events root s.1 calls).any Event.failsToClose) := by
  refine ⟨fun plan root calls => plan.clears.after root _ calls, ?_, ?_, ?_,
    fun child root s calls => child.after_watched root s calls⟩
  · intro σ spec child root calls sort s
    have hs : MergeSort.IsTidy s :=
      (MergeSort.keeps_isTidy spec child root).after (MergeSort.isTidy_start spec child) calls
    exact (MergeSort.ensures_openUp_of_isTidy hs).mono fun _ _ ht => ht.2
  · intro σ pageSize columns child root calls aggregate
    have hs := (Aggregate.keeps_isTidy pageSize columns child root).after
      (Aggregate.isTidy_start pageSize columns child) calls
    exact (Aggregate.ensures_openUp_of_isTidy pageSize columns hs).mono fun _ _ ht => ht.2
  · intro σ τ pageSize numBuffers keys left right root calls join
    have hs := (Join.keeps_isTidy pageSize numBuffers keys left right root).after
      (Join.isTidy_start pageSize numBuffers keys left right) calls
    refine (Join.ensures_next_watched keys hs).mono ?_
    rintro answer t ⟨ht, hend⟩ hnone hleft hright
    rcases ht.foldersGone (hend hnone) with h | h | h
    · simp [hleft] at h
    · simp [hright] at h
    · exact h

def onePage : Batch := ⟨4, [[.int 1, .int 10]]⟩

/-- A source whose second page cannot be read, and that cannot be closed at first. -/
def unruly : Script := ⟨[], [.ok (some onePage), .error .io], [some .io]⟩

/-- A plan over an unruly source, a sort, an aggregation that fails with its spool begun, and a join
without rows. -/
theorem Plan.deletes_folders_unruly :
    let source := Script.cursor "l" (Sample.intSchema "l" 2) unruly
    let plan := Plan.sort (MergeSort.byFirst 3) (.script "l" source.schema unruly)
    let sort := MergeSort.cursor (MergeSort.byFirst 3) (Join.childOf "l" [onePage])
    let aggregate := Aggregate.cursor 16 [.plain 0, .aggregate .count 1] source
    let join := Join.cursor 16 3 ⟨[0], [0]⟩ (Join.childOf "l" []).watched (Join.childOf "r" []).watched
    plan.cursor.folders (plan.cursor.after ⟨true⟩ plan.cursor.start ([.openUp] ++ [.close])) = [] ∧
    (∃ t, sort.openUp.Gives ⟨true⟩ sort.start () t ∧
      MergeSort.HoldsFinalRun (MergeSort.byFirst 3) t) ∧
    (aggregate.openUp.FailsIn ⟨true⟩ aggregate.start (.error .io) fun t => t.folder = none) ∧
    ∃ s t, join.openUp.Gives ⟨true⟩ join.start () s ∧ join.next.Gives ⟨true⟩ s none t ∧
      t.left.source.work.folder = none ∧ t.right.source.work.folder = none := by
  intro source plan sort aggregate join
  have hsorted : (sort.openUp.run ⟨true⟩ sort.start).answer = .ok () := by decide +kernel
  have hfailed : (aggregate.openUp.run ⟨true⟩ aggregate.start).answer = .error (.error .io) := by
    decide +kernel
  obtain ⟨hplan, hsort, haggregate, hjoin, -⟩ := Plan.deletes_folders
  refine ⟨hplan plan ⟨true⟩ [.openUp], ⟨_, ⟨hsorted, rfl⟩, ?_⟩, ⟨hfailed, ?_⟩, ?_⟩
  · exact (hsort (MergeSort.byFirst 3) (Join.childOf "l" [onePage]) ⟨true⟩ []).2 hsorted rfl
  · exact haggregate 16 [.plain 0, .aggregate .count 1] source ⟨true⟩ [] _ hfailed
  · have hopened : (join.openUp.run ⟨true⟩ join.start).answer = .ok () := by decide +kernel
    have hgone : join.next.Ensures ⟨true⟩ (join.after ⟨true⟩ join.start [.openUp]) fun answer t =>
        answer = .ok none → t.left.source.child.2 = false → t.right.source.child.2 = false →
        t.left.source.work.folder = none ∧ t.right.source.work.folder = none :=
      hjoin 16 3 ⟨[0], [0]⟩ (Join.childOf "l" []) (Join.childOf "r" []) ⟨true⟩ [.openUp]
    rw [Cursor.after_openUp] at hgone
    obtain ⟨s, hs⟩ : ∃ s, s = (join.openUp.run ⟨true⟩ join.start).state := ⟨_, rfl⟩
    obtain ⟨t, ht⟩ : ∃ t, t = (join.next.run ⟨true⟩ s).state := ⟨_, rfl⟩
    have hended : join.next.Gives ⟨true⟩ s none t := by
      refine ⟨?_, ht.symm⟩
      rw [hs]
      decide +kernel
    have hleft : t.left.source.child.2 = false := by
      rw [ht, hs]
      decide +kernel
    have hright : t.right.source.child.2 = false := by
      rw [ht, hs]
      decide +kernel
    rw [← hs] at hgone
    exact ⟨s, t, ⟨hopened, hs.symm⟩, hended, hended.ensured hgone rfl hleft hright⟩

/-- A label that leads out of the directory for working folders takes the run with it. -/
theorem Plan.finds_no_run_outside :
    let rows := (Plan.rows 8 (Sample.intSchema "t" 1) [[.int 1]]).cursor
    let sort := MergeSort.cursor ⟨8, 3, "../x", [0], false⟩ rows
    ∃ s folder, sort.openUp.Gives ⟨true⟩ sort.start () s ∧ s.work.folder = some folder ∧
      folder.contents = [] := by
  intro rows sort
  have hopened : (sort.openUp.run ⟨true⟩ sort.start).answer = .ok () := by decide +kernel
  have hempty : ((sort.openUp.run ⟨true⟩ sort.start).state.work.folder).map Folder.contents =
      some [] := by decide +kernel
  obtain ⟨folder, hfolder, hcontents⟩ := Option.map_eq_some_iff.mp hempty
  exact ⟨_, folder, ⟨hopened, rfl⟩, hfolder, hcontents⟩

end PagedQuery
