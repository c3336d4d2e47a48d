import PagedQuery.Proofs.JoinFolders
import PagedQuery.Proofs.PlacedRows

namespace PagedQuery

/-- The same operator, but closing it does nothing. -/
def Cursor.quiet {σ : Type} (c : Cursor σ) : Cursor σ := { c with close := pure () }

theorem Cursor.readsAs_quiet {σ : Type} (c : Cursor σ) : c.ReadsAs c.quiet := ⟨rfl, rfl⟩

/-- Whether an operator that is told to open does so and then delivers these pages. -/
def Cursor.OpensAndDelivers {σ : Type} (c : Cursor σ) (root : TempRoot) (s : σ)
    (batches : List Batch) : Prop :=
  ∃ opened ended, c.openUp.Gives root s () opened ∧ c.Delivers root opened batches ended

theorem Cursor.OpensAndDelivers.unique {σ : Type} {c : Cursor σ} {root : TempRoot} {s : σ}
    {batches batches' : List Batch} (h : c.OpensAndDelivers root s batches)
    (h' : c.OpensAndDelivers root s batches') : batches = batches' := by
  obtain ⟨opened, ended, hopen, hdelivers⟩ := h
  obtain ⟨opened', ended', hopen', hdelivers'⟩ := h'
  obtain ⟨-, rfl⟩ := hopen.unique hopen'
  exact (hdelivers.unique hdelivers').1

namespace MergeSort

variable {σ : Type} {spec : SortSpec} {child : Cursor σ} {root : TempRoot} {s t : State σ}

theorem exists_delivers_of_gives (hclosed : s.isOpen = false) (hruns : s.work.runs = [])
    (hopen : (openUp spec child).Gives root s () t) :
    0 < spec.pageSize / child.schema.rowSize ∧
      ∃ batches, child.OpensAndDelivers root s.child batches ∧
        ∀ o : KeyOrder spec.key spec.descending (batches.flatMap (·.rows)),
          (cursor spec child).Supplies root (fun _ => True) t (Batch.pages
            (spec.pageSize / child.schema.rowSize) ((batches.flatMap (·.rows)).mergeSort o.le)) := by
  obtain ⟨hbuffers, hc, c, u, hchild, hsort, rfl⟩ := exists_of_gives_openUp hclosed hopen
  obtain ⟨folder, batches, reader, hfolder, hdelivers, hrows, hreader⟩ :=
    exists_delivers_of_sortInput (s := { s with child := c, capacity := _ }) hruns hsort
  refine ⟨hc, batches, ⟨c, u.child, hchild, hdelivers⟩, fun o => ?_⟩
  have hroom := RunSet.hasRoom_of_gives hbuffers hc hrows
  have hreads := (RunSet.HasSorted.of_gives hbuffers hc
    (TempRoot.files_of_makeFolder? hfolder) hrows).handsOut hroom o
  rw [RunSet.sortedPages, o.sortBy_eq (List.Subset.refl _)] at hreads
  exact (supplies_of_handsOut (s := { u with isOpen := true }) spec child root hreads rfl hreader
    rfl).mono fun _ _ => trivial

end MergeSort

namespace Join

variable {σ τ : Type} {keys : Keys} {left : Cursor σ} {right : Cursor τ} {root : TempRoot}
  {capacity : Nat} {s : State σ τ}

def placed (keys : Keys) (left : Cursor σ) (right : Cursor τ) (root : TempRoot) (s : State σ τ) :
    List Row :=
  if s.isOpen && !s.isAtEnd then
    placedOn (step keys left right) root (steps left right s) s.capacity s
  else []

/-- The inputs of a join, whatever closing them comes to. -/
def quietInputs (left : Cursor σ) (right : Cursor τ) (root : TempRoot)
    (hkeys : keys.left.length = keys.right.length) : Inputs keys left.quiet right.quiet where
  root := root
  leftKind _ := True
  rightKind _ := True
  leftClosed _ := True
  rightClosed _ := True
  sameLength := hkeys
  leftCloses s _ := ⟨s, trivial, Act.gives_pure⟩
  rightCloses s _ := ⟨s, trivial, Act.gives_pure⟩

/-- Whether these pairs were taken from all pairs of a join: the others are still to come, or its
output has ended and there are none. -/
def HasTaken (i : Inputs keys left.quiet right.quiet) (capacity : Nat) (all rows : List Row)
    (s : State σ τ) : Prop :=
  ∃ rest, all = rows ++ rest ∧
    ((∃ L R, StandsAt i capacity s L R rest) ∨ (rest = [] ∧ s.isAtEnd = true))

/-- A call that finds the output ended places nothing. -/
theorem ensures_next_of_ended (keys : Keys) (left : Cursor σ) (right : Cursor τ)
    (hend : s.isAtEnd = true) :
    placed keys left right root s = [] ∧ (next keys left right).Ensures root s fun answer t =>
      t = s ∧ ∀ page, answer = .ok page → page = none := by
  refine ⟨by simp [placed, hend], Act.ensures_get_bind.mpr ?_⟩
  split
  · exact ⟨rfl, fun _ h => by cases h⟩
  · exact ⟨rfl, fun _ h => (Except.ok.inj h).symm⟩

section Standing

variable {hkeys : keys.left.length = keys.right.length} {L R rest : List Row}

/-- Filling a page does not depend on whether the inputs can be closed. -/
theorem exists_gives_gather_of_quiet
    (hs : StandsAt (quietInputs left right root hkeys) capacity s L R rest) :
    ∃ t L' R', StandsAt (quietInputs left right root hkeys) capacity t L' R' (rest.drop capacity) ∧
      (gather .joinOutput (step keys left right) (steps left right s) (.empty capacity)).Gives root s
        ⟨capacity, rest.take capacity⟩ t := by
  obtain ⟨t, L', R', ht, hgather⟩ := hs.exists_gives_gather
  rw [← step_congr left.readsAs_quiet right.readsAs_quiet] at hgather
  exact ⟨t, L', R', ht, hgather⟩

/-- If there is memory for the page of a call, it takes the pairs it has room for. -/
theorem placed_eq (hs : StandsAt (quietInputs left right root hkeys) capacity s L R rest)
    {page : Draft} (hreserve : Draft.reserve capacity = .ok page) :
    placed keys left right root s = rest.take capacity := by
  obtain rfl := Draft.eq_empty_of_reserve hreserve
  obtain ⟨t, L', R', -, hgather⟩ := exists_gives_gather_of_quiet hs
  have hpage := hgather.ensured (ensures_gather_eq (step keys left right) root s _ _ _) _ rfl
  rw [placed, hs.isOpen, hs.isAtEnd, hs.capacity, placedOn, hreserve]
  exact (congrArg Batch.rows hpage).symm

end Standing

/-- A join places its pairs in their order, until it has placed them all. -/
theorem accounts (pageSize numBuffers : Nat) (hkeys : keys.left.length = keys.right.length)
    (hc : 0 < capacity) (all : List Row) :
    (overSorted pageSize numBuffers keys left right).Accounts root (placed keys left right root)
      (HasTaken (quietInputs left right root hkeys) capacity all) fun rows _ => all = rows := by
  rintro rows s ⟨rest, rfl, ⟨L, R, hs⟩ | ⟨rfl, hend⟩⟩
  · apply Act.ensures_get_bind.mpr
    simp only [hs.isOpen, hs.isAtEnd, hs.capacity]
    cases hreserve : Draft.reserve capacity with
    | error f =>
      have hplaced : placed keys left right root s = [] := by
        rw [placed, hs.isOpen, hs.isAtEnd, hs.capacity, placedOn, hreserve]
        rfl
      rw [hplaced, List.append_nil]
      exact ⟨⟨rest, rfl, .inl ⟨L, R, hs⟩⟩, fun _ h => (by cases h), fun h => (by cases h)⟩
    | ok page =>
      rw [placed_eq hs hreserve]
      obtain rfl := Draft.eq_empty_of_reserve hreserve
      obtain ⟨t, L', R', ht, hgather⟩ := exists_gives_gather_of_quiet hs
      have hsplit : rows ++ rest = rows ++ rest.take capacity ++ rest.drop capacity := by
        rw [List.append_assoc, List.take_append_drop]
      have hgiven : ∀ page : Option Batch,
          (.ok (Batch.nonempty? ⟨capacity, rest.take capacity⟩) : Except Failure (Option Batch)) =
            .ok page → givenRows (.ok page) = rest.take capacity := by
        intro page hpage
        obtain rfl := Except.ok.inj hpage
        exact givenRows_nonempty? _
      refine hgather.bind_ensures ?_
      rw [isFull_take]
      split
      · next hfull =>
        refine Act.ensures_pure.mpr ⟨⟨rest.drop capacity, hsplit, .inl ⟨L', R', ht⟩⟩, hgiven, ?_⟩
        intro hnone
        refine absurd (Except.ok.inj hnone) (nonempty?_ne_none ?_ hc)
        rw [isFull_take, hfull]
      · next hfew =>
        -- What is left fits on this page, whether or not the inputs can be closed behind it.
        have hlast : rest.drop capacity = [] :=
          List.drop_of_length_le (Nat.le_of_lt (by simpa using hfew))
        refine (ensures_finish left right root t).bind ?_ ?_
        · intro f u hu
          exact ⟨⟨[], hlast ▸ hsplit, .inr ⟨rfl, hu⟩⟩, fun _ h => (by cases h), fun h => (by cases h)⟩
        · intro _ u hu
          refine Act.ensures_pure.mpr ⟨⟨[], hlast ▸ hsplit, .inr ⟨rfl, hu⟩⟩, hgiven, fun hnone => ?_⟩
          rw [hsplit, hlast, Batch.nonempty?_eq_none (Except.ok.inj hnone), List.append_nil,
            List.append_nil]
  · obtain ⟨hnone, hnext⟩ := ensures_next_of_ended keys left right hend
    rw [hnone, List.append_nil]
    refine hnext.mono ?_
    rintro answer t ⟨rfl, hanswer⟩
    refine ⟨⟨[], (List.append_nil rows).symm, .inr ⟨rfl, hend⟩⟩, fun page hpage => ?_, fun _ => rfl⟩
    rw [hanswer page hpage]
    rfl

theorem exists_of_gives_openUp {pageSize numBuffers : Nat} {t : State σ τ} (hclosed : s.isOpen = false)
    (h : (openUp pageSize numBuffers left right).Gives root s () t) :
    ∃ opened : State σ τ,
      Schema.pageCapacity (left.schema ++ right.schema) pageSize = .ok opened.capacity ∧
      left.openUp.Gives root s.left.source () opened.left.source ∧
      right.openUp.Gives root s.right.source () opened.right.source ∧
      (do
        modify reset
        onLeft (Side.load left)
        onRight (Side.load right)
        modify fun s => { s with isAtEnd := false, isOpen := true } : Act (State σ τ) Unit).Gives root
          opened () t := by
  replace h := Act.gives_get_bind.mp h
  rw [if_neg (by simp [hclosed])] at h
  obtain ⟨_, -, h⟩ := h.of_ofExcept_bind
  obtain ⟨capacity, hcapacity, h⟩ := h.of_ofAnswer_bind
  obtain ⟨_, sized, hsized, h⟩ := h.of_bind
  obtain ⟨-, rfl⟩ := hsized.unique (Act.gives_modify _)
  obtain ⟨_, half, hleft, h⟩ := h.of_bind
  obtain ⟨side, hside, rfl⟩ := hleft.of_within
  obtain ⟨l, hl, rfl⟩ := hside.of_within
  obtain ⟨attempted, opened, hattempt, h⟩ := h.of_bind
  let halfway : State σ τ := { s with capacity, left := { s.left with source := l } }
  rcases Act.gives_or_fails (onRight (Side.onSource right.openUp)) root halfway with
    ⟨_, opened', hright⟩ | ⟨f, hright⟩
  · obtain ⟨rfl, rfl⟩ := hattempt.unique hright.attempt
    obtain ⟨side, hside, rfl⟩ := hright.of_within
    obtain ⟨r, hr, rfl⟩ := hside.of_within
    exact ⟨_, hcapacity, hl, hr, h⟩
  · obtain ⟨u, hfailed⟩ := hright.exists_attempt
    obtain ⟨rfl, rfl⟩ := hattempt.unique hfailed
    obtain ⟨_, v, -, habandon⟩ := h.of_bind
    cases habandon.1

/-- A join that opens stands before all pairs of the rows that its inputs have for it, with no
band. -/
theorem exists_standsAt_of_gives {pageSize numBuffers : Nat} {t : State σ τ}
    (hkeys : keys.left.length = keys.right.length) (hclosed : s.isOpen = false)
    (h : (openUp pageSize numBuffers left right).Gives root s () t)
    {leftBatches rightBatches : List Batch}
    (hleft : ∀ l, left.openUp.Gives root s.left.source () l →
      left.Supplies root (fun _ => True) l leftBatches)
    (hright : ∀ r, right.openUp.Gives root s.right.source () r →
      right.Supplies root (fun _ => True) r rightBatches)
    {L R : List Row} (hL : leftBatches.flatMap (·.rows) = L) (hR : rightBatches.flatMap (·.rows) = R)
    (hleftKeys : ∀ row ∈ L, Row.HasKey keys.left row)
    (hrightKeys : ∀ row ∈ R, Row.HasKey keys.right row) :
    ∃ capacity, 0 < capacity ∧
      StandsAt (quietInputs left right root hkeys) capacity t L R (mergeRows keys L R) ∧
      t.bandIndex = none ∧ t.band = [] := by
  subst hL hR
  obtain ⟨opened, hcapacity, hl, hr, hload⟩ := exists_of_gives_openUp hclosed h
  obtain ⟨u, hu, hband, hloaded⟩ := exists_gives_load (quietInputs left right root hkeys) opened rfl
    ((hleft _ hl).congr left.readsAs_quiet) ((hright _ hr).congr right.readsAs_quiet) hleftKeys
    hrightKeys
  obtain ⟨-, rfl⟩ := hload.unique hloaded
  exact ⟨_, (Schema.of_pageCapacity hcapacity).2, hu, hband⟩

/-- Merging the sorted rows brings the pairs that nested loops find. -/
theorem nestedLoopJoin?_mergeSort {L R : List Row} (o : JoinOrder keys L R) :
    nestedLoopJoin? keys.left keys.right (L.mergeSort (Row.precedesOn keys.left false))
        (R.mergeSort (Row.precedesOn keys.right false)) =
      some (mergeRows keys (L.mergeSort o.onLeft.le) (R.mergeSort o.onRight.le)) := by
  have hL : L.mergeSort o.onLeft.le ⊆ L := fun _ => List.mem_mergeSort.mp
  have hR : R.mergeSort o.onRight.le ⊆ R := fun _ => List.mem_mergeSort.mp
  rw [mergeSort_congr fun a ha b hb => o.onLeft.precedesOn_eq ha hb,
    mergeSort_congr fun a ha b hb => o.onRight.precedesOn_eq ha hb, o.nestedLoopJoin?_eq hL hR,
    o.mergeRows_eq_pairs hL hR
      (List.pairwise_mergeSort o.onLeft.orders.trans o.onLeft.orders.total _)
      (List.pairwise_mergeSort o.onRight.orders.trans o.onRight.orders.total _)]

/-- A join that opens has read its children to the end, and stands before all pairs of their rows in
the order of the keys, with no band. -/
theorem exists_delivers_of_gives (pageSize numBuffers : Nat) (keys : Keys) (left : Cursor σ)
    (right : Cursor τ) (root : TempRoot) (hkeys : keys.left.length = keys.right.length)
    {closed s : State (MergeSort.State σ) (MergeSort.State τ)} (hclosed : closed.isOpen = false)
    (hleft : closed.left.source.isOpen = false ∧ closed.left.source.work.runs = [])
    (hright : closed.right.source.isOpen = false ∧ closed.right.source.work.runs = [])
    (hopen : (cursor pageSize numBuffers keys left right).openUp.Gives root closed () s) :
    ∃ leftBatches rightBatches,
      left.OpensAndDelivers root closed.left.source.child leftBatches ∧
      right.OpensAndDelivers root closed.right.source.child rightBatches ∧
      ∀ o : JoinOrder keys (leftBatches.flatMap (·.rows)) (rightBatches.flatMap (·.rows)),
        ∃ capacity, 0 < capacity ∧
          StandsAt (quietInputs (MergeSort.cursor (sortSpec pageSize numBuffers "left" keys.left) left)
              (MergeSort.cursor (sortSpec pageSize numBuffers "right" keys.right) right) root hkeys)
            capacity s ((leftBatches.flatMap (·.rows)).mergeSort o.onLeft.le)
            ((rightBatches.flatMap (·.rows)).mergeSort o.onRight.le)
            (mergeRows keys ((leftBatches.flatMap (·.rows)).mergeSort o.onLeft.le)
              ((rightBatches.flatMap (·.rows)).mergeSort o.onRight.le)) ∧
          s.bandIndex = none ∧ s.band = [] := by
  obtain ⟨opened, -, hl, hr, -⟩ := exists_of_gives_openUp hclosed hopen
  obtain ⟨hleftPage, leftBatches, hleftDelivers, hleftSupplies⟩ :=
    MergeSort.exists_delivers_of_gives hleft.1 hleft.2 hl
  obtain ⟨hrightPage, rightBatches, hrightDelivers, hrightSupplies⟩ :=
    MergeSort.exists_delivers_of_gives hright.1 hright.2 hr
  refine ⟨leftBatches, rightBatches, hleftDelivers, hrightDelivers, fun o => ?_⟩
  exact exists_standsAt_of_gives hkeys hclosed hopen
    (fun _ h => (h.unique hl).2 ▸ hleftSupplies o.onLeft)
    (fun _ h => (h.unique hr).2 ▸ hrightSupplies o.onRight)
    (Batch.flatMap_rows_pages hleftPage _) (Batch.flatMap_rows_pages hrightPage _)
    (fun row hrow => o.hasLeft row (List.mem_mergeSort.mp hrow))
    (fun row hrow => o.hasRight row (List.mem_mergeSort.mp hrow))

/-- When a join that was opened gives no more pages, its calls have placed the pairs of the rows that
its children have delivered. -/
theorem exists_endsBehind (conditions : List JoinCondition) (pageSize numBuffers : Nat) (keys : Keys)
    (left : Cursor σ) (right : Cursor τ) (root : TempRoot)
    (hresolved : Join.keys conditions left.schema right.schema = .ok (keys.left, keys.right))
    {closed s : State (MergeSort.State σ) (MergeSort.State τ)} (hclosed : closed.isOpen = false)
    (hleft : closed.left.source.isOpen = false ∧ closed.left.source.work.runs = [])
    (hright : closed.right.source.isOpen = false ∧ closed.right.source.work.runs = [])
    (hopen : (cursor pageSize numBuffers keys left right).openUp.Gives root closed () s) {n : Nat}
    (hend : (cursor pageSize numBuffers keys left right).nthAnswer root s n = .ok none) :
    ∃ leftBatches rightBatches,
      left.OpensAndDelivers root closed.left.source.child leftBatches ∧
      right.OpensAndDelivers root closed.right.source.child rightBatches ∧
      (Row.AreMatchable keys.left keys.right (leftBatches.flatMap (·.rows))
        (rightBatches.flatMap (·.rows)) → ∃ pairs,
          nestedLoopJoin? keys.left keys.right
            ((leftBatches.flatMap (·.rows)).mergeSort (Row.precedesOn keys.left false))
            ((rightBatches.flatMap (·.rows)).mergeSort (Row.precedesOn keys.right false)) =
              some pairs ∧
          (cursor pageSize numBuffers keys left right).EndsBehind root (placed keys
            (MergeSort.cursor (sortSpec pageSize numBuffers "left" keys.left) left)
            (MergeSort.cursor (sortSpec pageSize numBuffers "right" keys.right) right) root) s n
              pairs) := by
  obtain ⟨hkeys, -, -⟩ := keys_spec hresolved
  obtain ⟨leftBatches, rightBatches, hleftDelivers, hrightDelivers, hstands⟩ :=
    exists_delivers_of_gives pageSize numBuffers keys left right root hkeys hclosed hleft hright hopen
  refine ⟨leftBatches, rightBatches, hleftDelivers, hrightDelivers, fun hmatchable => ?_⟩
  obtain ⟨o⟩ := JoinOrder.nonempty_of_areMatchable hmatchable hkeys
  obtain ⟨capacity, hc, hs, -⟩ := hstands o
  obtain ⟨all, hall, hends⟩ := (accounts pageSize numBuffers hkeys hc _).exists_endsBehind
    ⟨_, (List.nil_append _).symm, .inl ⟨_, _, hs⟩⟩ hend
  exact ⟨_, nestedLoopJoin?_mergeSort o, hall ▸ hends⟩

end Join

/-- When an operator that was opened gives no more pages, its calls have placed all of its output on
pages. All of it has been given if no call that failed had placed anything, and only then. -/
theorem Cursor.places_output_before_end {σ τ : Type} (child : Cursor σ) (other : Cursor τ)
    (root : TempRoot) :
    (∀ (pageSize : Nat) (fields : List Nat) (closed s : Project.State σ) (n : Nat),
      let projection := Project.cursor pageSize fields child
      closed.isOpen = false → projection.openUp.Gives root closed () s →
      projection.nthAnswer root s n = .ok none →
        ∃ m, (projection.nth root s (n + 1)).child = child.nth root s.child m ∧
          ((∀ row ∈ child.given root s.child m, Row.HasKey fields row) →
            projection.EndsBehind root (Project.placed fields child root) s n
              ((child.given root s.child m).map (Row.keyOf fields)))) ∧
    ∀ (conditions : List JoinCondition) (pageSize numBuffers : Nat) (keys : Join.Keys)
        (closed s : Join.State (MergeSort.State σ) (MergeSort.State τ)) (n : Nat),
      let leftSort := MergeSort.cursor (Join.sortSpec pageSize numBuffers "left" keys.left) child
      let rightSort := MergeSort.cursor (Join.sortSpec pageSize numBuffers "right" keys.right) other
      let join := Join.cursor pageSize numBuffers keys child other
      Join.keys conditions child.schema other.schema = .ok (keys.left, keys.right) →
      closed.isOpen = false →
      closed.left.source.isOpen = false ∧ closed.left.source.work.runs = [] →
      closed.right.source.isOpen = false ∧ closed.right.source.work.runs = [] →
      join.openUp.Gives root closed () s → join.nthAnswer root s n = .ok none →
        ∃ leftBatches rightBatches,
          child.OpensAndDelivers root closed.left.source.child leftBatches ∧
          other.OpensAndDelivers root closed.right.source.child rightBatches ∧
          (Row.AreMatchable keys.left keys.right (leftBatches.flatMap (·.rows))
            (rightBatches.flatMap (·.rows)) → ∃ pairs,
              nestedLoopJoin? keys.left keys.right
                ((leftBatches.flatMap (·.rows)).mergeSort (Row.precedesOn keys.left false))
                ((rightBatches.flatMap (·.rows)).mergeSort (Row.precedesOn keys.right false)) =
                  some pairs ∧
              join.EndsBehind root (Join.placed keys leftSort rightSort root) s n pairs) :=
  ⟨fun pageSize fields _ _ _ hclosed hopen hend =>
      Project.exists_endsBehind pageSize fields child root hclosed hopen hend,
    fun conditions pageSize numBuffers keys _ _ _ hkeys hclosed hleft hright hopen hend =>
      Join.exists_endsBehind conditions pageSize numBuffers keys child other root hkeys hclosed hleft
        hright hopen hend⟩

/-- A projection with a row on its page fails with its source, and a join with a pair on its page
fails as an input cannot be closed. Neither gives what it has placed, and then both have ended. -/
theorem Cursor.gives_none_after_lost_page :
    let projection := Project.cursor 8 [0]
      (Script.cursor "t" (Sample.intSchema "t" 2) ⟨[], [.ok (some onePage), .error .io], []⟩)
    let join := Join.cursor 32 3 ⟨[0], [0]⟩
      (Script.cursor "l" (Sample.intSchema "l" 2) ⟨[], [.ok (some onePage)], [some .io]⟩)
      (Join.childOf "r" [onePage])
    let calls : List Call := [.openUp, .next, .next]
    let answers : List Event :=
      [.opened (.ok ()), .paged (.error (.error .io)), .paged (.ok none)]
    projection.events ⟨true⟩ projection.start calls = answers ∧
      join.events ⟨true⟩ join.start calls = answers := by
  decide +kernel

end PagedQuery
