import PagedQuery.Proofs.Reopening

/-!
# Closed operators

Closing an operator makes it as good as new, over children that are wherever closing them has brought
them. This holds however the call ends, with one exception: a sort whose child fails to close stays
open without its runs. It then gives no pages and does not open its child again, and neither does an
operator that reads from it.
-/

namespace PagedQuery

namespace Cursor

variable {σ : Type}

/-- Whether an operator is closed and does what a new one does. -/
structure IsRenewed (c : Cursor σ) (s : σ) (new : Cursor σ) : Prop where
  isShut : c.IsShut s
  answersAs : c.AnswersAs s new

/-- Whether an operator is open and has no pages. -/
def IsSpent (c : Cursor σ) (s : σ) : Prop :=
  ∀ root, c.openUp.Gives root s () s ∧ c.next.Gives root s none s

/-- Whether no page is given after an operator has been opened. -/
def OpensEmpty (c : Cursor σ) (s : σ) : Prop :=
  ∀ root, c.openUp.Ensures root s fun answer t => answer = .ok () →
    ∀ root', c.next.Ensures root' t fun answer _ => ∀ page, answer ≠ .ok (some page)

end Cursor

theorem nonempty?_ne_some {capacity : Nat} (page : Batch) :
    Batch.nonempty? ⟨capacity, []⟩ ≠ some page := by
  intro h
  cases h

/-- If there is nothing to bring, a page stays empty. -/
theorem gives_gather_of_done {σ : Type} {step : Act σ Step} {root : TempRoot} {s : σ}
    (hstep : step.Gives root s .done s) (role : PageRole) (steps capacity : Nat) :
    (gather role step (steps + 1) (.empty capacity)).Gives root s ⟨capacity, []⟩ s := by
  unfold gather
  split
  · exact Act.gives_pure
  · exact hstep.bind Act.gives_pure

namespace MergeSort

variable {σ : Type} {spec : SortSpec} {child : Cursor σ} {root : TempRoot} {s t : State σ}

theorem isSpent_emptied (spec : SortSpec) (child : Cursor σ) (c : σ) (capacity : Nat)
    (stats : SortStats) : (cursor spec child).IsSpent (emptied c true capacity stats) :=
  fun _ => ⟨Act.gives_unless_isOpen State.isOpen rfl, rfl, rfl⟩

end MergeSort

namespace Distinct

variable {σ : Type} {sort : Cursor σ} {root : TempRoot} {s : State σ}

/-- Over a sort that is open and has no pages, an open duplicate elimination has none. -/
theorem ensures_next_of_spent (pageSize : Nat) (hsort : sort.IsSpent s.sort)
    (hpending : s.pending = []) (root : TempRoot) :
    (overSorted pageSize sort).next.Ensures root s fun answer _ =>
      ∀ page, answer ≠ .ok (some page) := by
  have hstep : (step sort).Gives root s .done s := by
    refine Act.gives_get_bind.mpr ?_
    rw [hpending]
    exact Act.Gives.bind (Act.Gives.within (hsort root).2) Act.gives_pure
  apply Act.ensures_get_bind.mpr
  split
  · cases hreserve : Draft.reserve s.capacity with
    | error f =>
      intro page h
      cases h
    | ok page =>
      obtain rfl := Draft.eq_empty_of_reserve hreserve
      refine (gives_gather_of_done hstep .distinctOutput _ s.capacity).bind_ensures ?_
      exact fun page h => nonempty?_ne_some page (Except.ok.inj h)
  · intro page h
    cases h

theorem opensEmpty_of_spent (pageSize : Nat) (hs : s.isOpen = false) (hsort : sort.IsSpent s.sort) :
    (overSorted pageSize sort).OpensEmpty s := by
  intro root
  apply Act.ensures_get_bind.mpr
  rw [if_neg (by simp [hs])]
  refine Act.ensures_ofAnswer_bind (fun capacity _ => ?_) fun _ _ h => by cases h
  apply Act.ensures_modify_bind.mpr
  have hopen : (onSort sort.openUp).Gives root { s with capacity } () { s with capacity } :=
    Act.Gives.within (hsort root).1
  refine hopen.bind_ensures (Act.ensures_modify.mpr fun _ root' => ?_)
  let opened : State σ := { s with capacity, last := none, pending := [], isOpen := true }
  exact ensures_next_of_spent (s := opened) pageSize hsort rfl root'

end Distinct

namespace Join

variable {σ τ : Type} {left : Cursor σ} {right : Cursor τ} {root : TempRoot} {keys : Keys}
  {s : State σ τ}

/-- A join that has come to the end of an input, and is between two bands, has no pages. -/
theorem ensures_next_of_spent (pageSize numBuffers : Nat) (keys : Keys) (left : Cursor σ)
    (right : Cursor τ) (hside : s.left.row? = none ∨ s.right.row? = none)
    (hindex : s.bandIndex = none) (root : TempRoot) :
    (overSorted pageSize numBuffers keys left right).next.Ensures root s fun answer _ =>
      ∀ page, answer ≠ .ok (some page) := by
  have hstep : (step keys left right).Gives root s .done s := by
    refine Act.gives_get_bind.mpr ?_
    rw [hindex]
    rcases hside with hrow | hrow
    · rw [hrow]
      exact Act.gives_pure
    · rw [hrow]
      cases s.left.row? <;> exact Act.gives_pure
  apply Act.ensures_get_bind.mpr
  split
  · intro page h
    cases h
  split
  · intro page h
    cases h
  cases hreserve : Draft.reserve s.capacity with
  | error f =>
    intro page h
    cases h
  | ok page =>
    obtain rfl := Draft.eq_empty_of_reserve hreserve
    refine (gives_gather_of_done hstep .joinOutput _ s.capacity).bind_ensures ?_
    split
    · exact fun page h => nonempty?_ne_some page (Except.ok.inj h)
    · have hfinish : (finish left right).Ensures root s fun _ _ => True := trivial
      refine hfinish.bind (fun _ _ _ page h => (by cases h)) fun _ _ _ page h => ?_
      exact nonempty?_ne_some page (Except.ok.inj h)

theorem ensures_openUp_of_spent (root : TempRoot)
    (hside : left.IsSpent s.left.source ∨ right.IsSpent s.right.source) :
    ((onLeft (Side.onSource left.openUp)).Ensures root s fun _ t =>
      left.IsSpent t.left.source ∨ right.IsSpent t.right.source) ∧
    (onRight (Side.onSource right.openUp)).Ensures root s fun _ t =>
      left.IsSpent t.left.source ∨ right.IsSpent t.right.source := by
  rcases hside with hleft | hright
  · have hopen : (Side.onSource left.openUp).Gives root s.left () s.left :=
      Act.Gives.within (hleft root).1
    refine ⟨Act.ensures_within.mpr (hopen.mono ?_), Act.ensures_within.mpr (.inl hleft)⟩
    rintro _ _ ⟨-, rfl⟩
    exact .inl hleft
  · have hopen : (Side.onSource right.openUp).Gives root s.right () s.right :=
      Act.Gives.within (hright root).1
    refine ⟨Act.ensures_within.mpr (.inr hright), Act.ensures_within.mpr (hopen.mono ?_)⟩
    rintro _ _ ⟨-, rfl⟩
    exact .inr hright

theorem ensures_load_of_spent (root : TempRoot)
    (hside : left.IsSpent s.left.source ∨ right.IsSpent s.right.source) :
    (do
      onLeft (Side.load left)
      onRight (Side.load right)
      modify fun s => { s with isAtEnd := false, isOpen := true } :
        Act (State σ τ) Unit).Ensures root s fun answer t => answer = .ok () →
          (t.left.row? = none ∨ t.right.row? = none) ∧ t.bandIndex = s.bandIndex := by
  have hfirst : (onLeft (Side.load left)).Ensures root s fun answer t => answer = .ok () →
      (t.left.row? = none ∨ right.IsSpent t.right.source) ∧ t.bandIndex = s.bandIndex := by
    rcases hside with hleft | hright
    · have hload : (Side.load left).Gives root s.left () { s.left with page := none } :=
        Act.Gives.bind (Act.Gives.within (hleft root).2) (Act.gives_modify _)
      refine Act.ensures_within.mpr (hload.mono ?_)
      rintro _ _ ⟨-, rfl⟩ -
      exact ⟨.inl rfl, rfl⟩
    · exact Act.ensures_within.mpr fun _ => ⟨.inr hright, rfl⟩
  refine hfirst.bind (fun _ _ _ h => by cases h) fun _ t ht => ?_
  obtain ⟨hside, hindex⟩ := ht rfl
  have hsecond : (onRight (Side.load right)).Ensures root t fun answer u => answer = .ok () →
      (u.left.row? = none ∨ u.right.row? = none) ∧ u.bandIndex = s.bandIndex := by
    rcases hside with hleft | hright
    · exact Act.ensures_within.mpr fun _ => ⟨.inl hleft, hindex⟩
    · have hload : (Side.load right).Gives root t.right () { t.right with page := none } :=
        Act.Gives.bind (Act.Gives.within (hright root).2) (Act.gives_modify _)
      refine Act.ensures_within.mpr (hload.mono ?_)
      rintro _ _ ⟨-, rfl⟩ -
      exact ⟨.inr rfl, hindex⟩
  exact hsecond.bind (fun _ _ _ h => by cases h) fun _ u hu => Act.ensures_modify.mpr fun _ => hu rfl

theorem opensEmpty_of_spent (pageSize numBuffers : Nat) (keys : Keys) (hs : s.isOpen = false)
    (hside : left.IsSpent s.left.source ∨ right.IsSpent s.right.source) :
    (overSorted pageSize numBuffers keys left right).OpensEmpty s := by
  intro root
  apply Act.ensures_get_bind.mpr
  rw [if_neg (by simp [hs])]
  refine Act.ensures_ofExcept_bind (fun _ _ => ?_) fun _ _ h => by cases h
  refine Act.ensures_ofAnswer_bind (fun capacity _ => ?_) fun _ _ h => by cases h
  apply Act.ensures_modify_bind.mpr
  let sized : State σ τ := { s with capacity }
  refine (ensures_openUp_of_spent (s := sized) root hside).1.bind (fun _ _ _ h => by cases h) ?_
  intro _ t ht
  refine (ensures_openUp_of_spent root ht).2.attempt_bind ?_
  rintro (f | _) u hu
  · have hclose : (onLeft (Side.onSource left.close)).Ensures root u fun _ _ => True := trivial
    exact hclose.attempt_bind fun _ _ _ h => by cases h
  · refine Act.ensures_modify_bind.mpr ?_
    refine (ensures_load_of_spent (s := reset u) root hu).mono fun answer v hv hok root' => ?_
    obtain ⟨hrows, hindex⟩ := hv hok
    exact ensures_next_of_spent pageSize numBuffers keys left right hrows hindex root'

end Join

/-- A sort that was told to close is still open only if it was open and its child has failed. -/
theorem MergeSort.ensures_close_renewed {σ : Type} (spec : SortSpec) (child : Cursor σ)
    (root : TempRoot) (s : State σ) :
    (cursor spec child).close.Ensures root s fun answer t =>
      (t.isOpen = true ↔ s.isOpen = true ∧ ∃ f, answer = .error f) ∧
      (t.isOpen = false →
        (cursor spec child).IsRenewed t (cursor spec (child.startingAt t.child))) ∧
      (t.isOpen = true → (cursor spec child).IsSpent t) := by
  refine (ensures_close_emptied child root s).mono ?_
  rintro answer t ⟨ht, -, hopen⟩
  refine ⟨hopen, fun hclosed => ⟨isShut spec child hclosed, ?_⟩, fun hstuck => ?_⟩
  · rw [ht, hclosed]
    exact answersAs_of_emptied spec child.opensAlike_eq rfl _ _
  · rw [ht, hstuck]
    exact isSpent_emptied spec child _ _ _

theorem Distinct.ensures_close_renewed {σ : Type} (pageSize numBuffers : Nat) (child : Cursor σ)
    (root : TempRoot) (s : State (MergeSort.State σ)) :
    (cursor pageSize numBuffers child).close.Ensures root s fun answer t =>
      (t.sort.isOpen = true ↔ s.sort.isOpen = true ∧ ∃ f, answer = .error f) ∧
      (t.sort.isOpen = false → (cursor pageSize numBuffers child).IsRenewed t
        (cursor pageSize numBuffers (child.startingAt t.sort.child))) ∧
      (t.sort.isOpen = true → (cursor pageSize numBuffers child).IsShut t ∧
        (cursor pageSize numBuffers child).OpensEmpty t) := by
  apply Act.ensures_modify_bind.mpr
  refine Act.ensures_within.mpr ((MergeSort.ensures_close_emptied child root s.sort).mono ?_)
  rintro answer t ⟨ht, -, hopen⟩
  refine ⟨hopen, fun hclosed => ⟨isShut pageSize _ rfl, ?_⟩, fun hstuck =>
    ⟨isShut pageSize _ rfl, opensEmpty_of_spent pageSize rfl ?_⟩⟩
  · rw [hclosed] at ht
    exact answersAs_of_emptied pageSize numBuffers child.opensAlike_eq rfl rfl ht
  · dsimp only
    rw [ht, hstuck]
    exact MergeSort.isSpent_emptied _ child _ _ _

/-- A join that was told to close is closed, but if that fails, a sort of it may still be open. -/
theorem Join.ensures_close_renewed {σ τ : Type} (pageSize numBuffers : Nat) (keys : Keys)
    (left : Cursor σ) (right : Cursor τ) (root : TempRoot)
    (s : State (MergeSort.State σ) (MergeSort.State τ)) :
    (cursor pageSize numBuffers keys left right).close.Ensures root s fun answer t =>
      (answer = .ok () → t.left.source.isOpen = false ∧ t.right.source.isOpen = false) ∧
      (t.left.source.isOpen = false → t.right.source.isOpen = false →
        (cursor pageSize numBuffers keys left right).IsRenewed t
          (cursor pageSize numBuffers keys (left.startingAt t.left.source.child)
            (right.startingAt t.right.source.child))) ∧
      (t.left.source.isOpen = true ∨ t.right.source.isOpen = true →
        (cursor pageSize numBuffers keys left right).IsShut t ∧
          (cursor pageSize numBuffers keys left right).OpensEmpty t) := by
  refine (ensures_close_both (MergeSort.ensures_close_emptied left root s.left.source)
    (MergeSort.ensures_close_emptied right root s.right.source)).mono ?_
  rintro answer t ⟨leftEnd, rightEnd, ⟨hleft, -, hleftOpen⟩, ⟨hright, -, hrightOpen⟩, hopen, hend, hok⟩
  have hshut := isShut pageSize numBuffers keys
    (MergeSort.cursor (sortSpec pageSize numBuffers "left" keys.left) left)
    (MergeSort.cursor (sortSpec pageSize numBuffers "right" keys.right) right) hopen
  refine ⟨fun h => ?_, fun hl hr => ⟨hshut, ?_⟩, fun hstuck => ⟨hshut, ?_⟩⟩
  · obtain ⟨rfl, rfl⟩ := hok h
    refine ⟨Bool.eq_false_iff.mpr fun h => ?_, Bool.eq_false_iff.mpr fun h => ?_⟩
    · obtain ⟨-, f, hf⟩ := hleftOpen.mp h
      cases hf
    · obtain ⟨-, f, hf⟩ := hrightOpen.mp h
      cases hf
  · rw [hl] at hleft
    rw [hr] at hright
    exact answersAs_of_emptied pageSize numBuffers keys left.opensAlike_eq right.opensAlike_eq
      ⟨t.capacity, by rw [phase, hopen, hend]⟩ rfl rfl hleft hright
  · refine opensEmpty_of_spent pageSize numBuffers keys hopen ?_
    refine hstuck.imp (fun h => ?_) fun h => ?_
    · rw [hleft, h]
      exact MergeSort.isSpent_emptied _ left _ _ _
    · rw [hright, h]
      exact MergeSort.isSpent_emptied _ right _ _ _

/-- What closing leaves of an operator, whatever state it was in and however the call ends. A
projection and an aggregation are as good as new, over a child that is where it was left. So is a
sort, unless it was open and its child has failed to close: then it is still open, without pages. A
duplicate elimination and a join give no pages until they are opened, and are as good as new if
their sorts are closed; while a sort of theirs is still open, they can be opened, but give no page. -/
theorem Cursor.renewed_by_close {σ τ : Type} (child : Cursor σ) (other : Cursor τ)
    (root : TempRoot) :
    (∀ (pageSize : Nat) (fields : List Nat) (s : Project.State σ),
      let projection := Project.cursor pageSize fields child
      projection.close.Ensures root s fun _ t =>
        projection.IsRenewed t (Project.cursor pageSize fields (child.startingAt t.child))) ∧
    (∀ (pageSize : Nat) (columns : List AggregateColumn) (s : Aggregate.State σ),
      let aggregation := Aggregate.cursor pageSize columns child
      aggregation.close.Ensures root s fun _ t =>
        aggregation.IsRenewed t (Aggregate.cursor pageSize columns (child.startingAt t.child))) ∧
    (∀ (spec : SortSpec) (s : MergeSort.State σ),
      let sort := MergeSort.cursor spec child
      sort.close.Ensures root s fun answer t =>
        (t.isOpen = true ↔ s.isOpen = true ∧ ∃ f, answer = .error f) ∧
        (t.isOpen = false → sort.IsRenewed t (MergeSort.cursor spec (child.startingAt t.child))) ∧
        (t.isOpen = true → sort.IsSpent t)) ∧
    (∀ (pageSize numBuffers : Nat) (s : Distinct.State (MergeSort.State σ)),
      let distinct := Distinct.cursor pageSize numBuffers child
      distinct.close.Ensures root s fun answer t =>
        (t.sort.isOpen = true ↔ s.sort.isOpen = true ∧ ∃ f, answer = .error f) ∧
        (t.sort.isOpen = false → distinct.IsRenewed t
          (Distinct.cursor pageSize numBuffers (child.startingAt t.sort.child))) ∧
        (t.sort.isOpen = true → distinct.IsShut t ∧ distinct.OpensEmpty t)) ∧
    ∀ (pageSize numBuffers : Nat) (keys : Join.Keys)
        (s : Join.State (MergeSort.State σ) (MergeSort.State τ)),
      let join := Join.cursor pageSize numBuffers keys child other
      join.close.Ensures root s fun answer t =>
        (answer = .ok () → t.left.source.isOpen = false ∧ t.right.source.isOpen = false) ∧
        (t.left.source.isOpen = false → t.right.source.isOpen = false → join.IsRenewed t
          (Join.cursor pageSize numBuffers keys (child.startingAt t.left.source.child)
            (other.startingAt t.right.source.child))) ∧
        (t.left.source.isOpen = true ∨ t.right.source.isOpen = true →
          join.IsShut t ∧ join.OpensEmpty t) := by
  refine ⟨?_, ?_, ?_, ?_, ?_⟩
  · intro pageSize fields s projection
    apply Act.ensures_modify_bind.mpr
    apply Act.ensures_within.mpr
    exact ⟨Project.isShut pageSize fields rfl,
      Project.answersAs_of_closed pageSize fields child.opensAlike_eq rfl rfl⟩
  · intro pageSize columns s aggregation
    refine (Aggregate.ensures_close_emptied child root s).mono fun _ t ht => ?_
    rw [ht]
    exact ⟨Aggregate.isShut pageSize columns child rfl,
      Aggregate.answersAs_of_emptied pageSize columns child.opensAlike_eq rfl _⟩
  · exact fun spec s => MergeSort.ensures_close_renewed spec child root s
  · exact fun pageSize numBuffers s => Distinct.ensures_close_renewed pageSize numBuffers child root s
  · exact fun pageSize numBuffers keys s =>
      Join.ensures_close_renewed pageSize numBuffers keys child other root s

/-- A source that gives the same page each time it is read, and that cannot be closed at first. -/
def unclosable : Script :=
  ⟨[], [.ok (some onePage), .ok none, .ok (some onePage), .ok none], [some .io]⟩

/-- A sort whose source fails to close takes no notice of having been closed: it gives no page where
it should refuse, and having been opened again, it does not give the page that its source has. -/
theorem MergeSort.ignores_failed_close :
    let sort := MergeSort.cursor (MergeSort.byFirst 3)
      (Script.cursor "l" (Sample.intSchema "l" 2) unclosable)
    sort.events ⟨true⟩ sort.start [.openUp, .next, .close, .next, .openUp, .next] =
      [.opened (.ok ()), .paged (.ok (some ⟨1, onePage.rows⟩)), .closed (.error (.error .io)),
        .paged (.ok none), .opened (.ok ()), .paged (.ok none)] := by
  decide +kernel

end PagedQuery
