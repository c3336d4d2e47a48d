import PagedQuery.Proofs.BandJoin
import PagedQuery.Proofs.ExternalSort
import PagedQuery.Proofs.MatchingRows

namespace PagedQuery

/-- Whether an operator can be opened, delivers these pages and can be closed behind them. -/
def Cursor.Provides {σ : Type} (c : Cursor σ) (root : TempRoot) (batches : List Batch) : Prop :=
  ∃ opened ended closed, c.openUp.Gives root c.start () opened ∧
    c.Delivers root opened batches ended ∧ c.close.Gives root ended () closed

namespace Join

variable {σ τ : Type}

theorem lt_length_of_resolve {schema : Schema} {name : String} {position : Nat}
    (h : resolve schema name = .ok position) : position < schema.length := by
  rw [resolve] at h
  cases hfound : schema.position? name with
  | none =>
    rw [hfound] at h
    cases h
  | some found =>
    rw [hfound] at h
    obtain rfl := Except.ok.inj h
    rw [Schema.position?] at hfound
    split at hfound
    · exact (List.findIdx?_eq_some_iff_getElem.mp hfound).1
    · exact (List.findIdx?_eq_some_iff_getElem.mp hfound).1

/-- The keys of a join have one position for each condition, within the columns of their side. -/
theorem resolveAll_spec {left right : Schema} {conditions : List JoinCondition}
    {leftKey rightKey : List Nat}
    (h : resolveAll left right conditions = .ok (leftKey, rightKey)) :
    leftKey.length = rightKey.length ∧ (∀ position ∈ leftKey, position < left.length) ∧
      ∀ position ∈ rightKey, position < right.length := by
  induction conditions generalizing leftKey rightKey with
  | nil =>
    cases h
    simp
  | cons condition conditions ih =>
    rw [resolveAll] at h
    obtain ⟨l, hl, h⟩ := exists_of_bind_eq_ok h
    obtain ⟨r, hr, h⟩ := exists_of_bind_eq_ok h
    obtain ⟨⟨leftRest, rightRest⟩, hrest, h⟩ := exists_of_bind_eq_ok h
    obtain ⟨hlength, hleft, hright⟩ := ih hrest
    cases h
    exact ⟨congrArg (· + 1) hlength, List.forall_mem_cons.mpr ⟨lt_length_of_resolve hl, hleft⟩,
      List.forall_mem_cons.mpr ⟨lt_length_of_resolve hr, hright⟩⟩

theorem keys_spec {left right : Schema} {conditions : List JoinCondition}
    {leftKey rightKey : List Nat} (h : Join.keys conditions left right = .ok (leftKey, rightKey)) :
    leftKey.length = rightKey.length ∧ (∀ position ∈ leftKey, position < left.length) ∧
      ∀ position ∈ rightKey, position < right.length := by
  rw [Join.keys] at h
  split at h
  · cases h
  · exact resolveAll_spec h

/-- What is asked of the settings, the conditions and the rows of a join. -/
structure CanJoin (conditions : List JoinCondition) (keys : Keys) (pageSize numBuffers : Nat)
    (left right : Schema) (leftRows rightRows : List Row) : Prop where
  buffers : 3 ≤ numBuffers
  resolved : Join.keys conditions left right = .ok (keys.left, keys.right)
  leftPage : 1 ≤ pageSize / left.rowSize
  rightPage : 1 ≤ pageSize / right.rowSize
  page : 1 ≤ pageSize / Schema.rowSize (left ++ right)
  matchable : Row.AreMatchable keys.left keys.right leftRows rightRows
  leftStorable : ∀ row ∈ leftRows, row.IsStorable
  rightStorable : ∀ row ∈ rightRows, row.IsStorable

/-- The inputs of a join that sorts the rows of both children, which then stand behind their pages. -/
def sortedInputs (pageSize numBuffers : Nat) {keys : Keys} {left : Cursor σ} {right : Cursor τ}
    {root : TempRoot} (hkeys : keys.left.length = keys.right.length)
    {leftEnded leftClosed : σ} {rightEnded rightClosed : τ}
    (hleft : left.close.Gives root leftEnded () leftClosed)
    (hright : right.close.Gives root rightEnded () rightClosed) :
    Inputs keys (MergeSort.cursor (sortSpec pageSize numBuffers "left" keys.left) left)
      (MergeSort.cursor (sortSpec pageSize numBuffers "right" keys.right) right) where
  root := root
  leftKind s := s.child = leftEnded
  rightKind s := s.child = rightEnded
  leftClosed _ := True
  rightClosed _ := True
  sameLength := hkeys
  leftCloses _ hs :=
    let ⟨t, ht⟩ := MergeSort.exists_gives_close (hs ▸ hleft)
    ⟨t, trivial, ht⟩
  rightCloses _ hs :=
    let ⟨t, ht⟩ := MergeSort.exists_gives_close (hs ▸ hright)
    ⟨t, trivial, ht⟩

theorem fitsMemory_output {pageSize : Nat} {left : Schema} (right : Schema)
    (hpage : 1 ≤ pageSize / left.rowSize)
    (hmemory : fitsMemory (pageSize / left.rowSize) Batch.rowRoom = true) :
    fitsMemory (pageSize / Schema.rowSize (left ++ right)) Batch.rowRoom = true := by
  have hwider : left.rowSize ≤ Schema.rowSize (left ++ right) := by
    rw [Schema.rowSize, Schema.rowSize, total_append]
    exact Nat.le_add_right _ _
  have hpos : 0 < left.rowSize := by
    refine Nat.pos_of_ne_zero fun hzero => ?_
    rw [hzero, Nat.div_zero] at hpage
    cases hpage
  have hfewer := Nat.div_le_div_left hwider hpos (a := pageSize)
  exact decide_eq_true (Nat.le_trans (Nat.mul_le_mul_right _ hfewer) (of_decide_eq_true hmemory))

/-- A join of children that provide pages gives the pairs of their sorted rows. -/
theorem exists_gives_pairs {conditions : List JoinCondition} {keys : Keys}
    {pageSize numBuffers : Nat} {left : Cursor σ} {right : Cursor τ} {root : TempRoot}
    {leftBatches rightBatches : List Batch} {leftRows rightRows : List Row}
    (h : CanJoin conditions keys pageSize numBuffers left.schema right.schema leftRows rightRows)
    (o : JoinOrder keys leftRows rightRows) (hleft : left.Provides root leftBatches)
    (hright : right.Provides root rightBatches) (hleftRows : leftBatches.flatMap (·.rows) = leftRows)
    (hrightRows : rightBatches.flatMap (·.rows) = rightRows)
    (hcanLeft : CanSort (sortSpec pageSize numBuffers "left" keys.left)
      (pageSize / left.schema.rowSize) leftRows)
    (hcanRight : CanSort (sortSpec pageSize numBuffers "right" keys.right)
      (pageSize / right.schema.rowSize) rightRows) (hroot : root.isPresent = true) :
    ∃ s t, (cursor pageSize numBuffers keys left right).openUp.Gives root
        (cursor pageSize numBuffers keys left right).start () s ∧
      (cursor pageSize numBuffers keys left right).drain.Gives root s
        (Batch.pages (pageSize / Schema.rowSize (left.schema ++ right.schema))
          (o.pairs (leftRows.mergeSort o.onLeft.le) (rightRows.mergeSort o.onRight.le)), none) t := by
  obtain ⟨leftOpened, leftEnded, leftClosed, hleftOpen, hleftDelivers, hleftClose⟩ := hleft
  obtain ⟨rightOpened, rightEnded, rightClosed, hrightOpen, hrightDelivers, hrightClose⟩ := hright
  obtain ⟨hkeys, hleftKey, hrightKey⟩ := keys_spec h.resolved
  let i := sortedInputs pageSize numBuffers hkeys hleftClose hrightClose
  obtain ⟨isPresent⟩ := root
  obtain rfl : isPresent = true := hroot
  have hfolders : ((⟨true⟩ : TempRoot).makeFolder? ("left" ++ "-sort-")).isSome = true ∧
      ((⟨true⟩ : TempRoot).makeFolder? ("right" ++ "-sort-")).isSome = true := by decide
  obtain ⟨leftSorted, hopenLeft, -, hleftPages⟩ := MergeSort.exists_gives_openUp
    (s := (MergeSort.cursor (sortSpec pageSize numBuffers "left" keys.left) left).start)
    h.leftPage hcanLeft o.onLeft hleftKey hfolders.1 rfl rfl hleftOpen hleftDelivers hleftRows
  obtain ⟨rightSorted, hopenRight, -, hrightPages⟩ := MergeSort.exists_gives_openUp
    (s := (MergeSort.cursor (sortSpec pageSize numBuffers "right" keys.right) right).start)
    h.rightPage hcanRight o.onRight hrightKey hfolders.2 rfl rfl hrightOpen hrightDelivers hrightRows
  have hleftSub : leftRows.mergeSort o.onLeft.le ⊆ leftRows := fun _ => List.mem_mergeSort.mp
  have hrightSub : rightRows.mergeSort o.onRight.le ⊆ rightRows := fun _ => List.mem_mergeSort.mp
  obtain ⟨s, hopen, hstands⟩ := exists_gives_openUp
    (s := (cursor pageSize numBuffers keys left right).start) (L := leftRows.mergeSort o.onLeft.le)
    (R := rightRows.mergeSort o.onRight.le) i h.buffers h.page rfl hopenLeft hopenRight
    hleftPages hrightPages (Batch.flatMap_rows_pages h.leftPage _)
    (Batch.flatMap_rows_pages h.rightPage _) (fun row hrow => o.hasLeft row (hleftSub hrow))
    fun row hrow => o.hasRight row (hrightSub hrow)
  rw [o.mergeRows_eq_pairs hleftSub hrightSub
    (List.pairwise_mergeSort o.onLeft.orders.trans o.onLeft.orders.total _)
    (List.pairwise_mergeSort o.onRight.orders.trans o.onRight.orders.total _)] at hstands
  have hmemory := fitsMemory_output right.schema h.leftPage hcanLeft.memory.page
  have hfills := fills i pageSize numBuffers hmemory
  obtain ⟨t, u, hyields, hend⟩ :=
    (hfills.supplies ⟨h.page, 0, _, .inl ⟨_, _, hstands⟩, rfl⟩).exists_yields
  exact ⟨s, u, hopen, hyields.drain hend⟩

/-- A join gives the pairs that nested loops over the stably sorted inputs find, in their order. These
are the pairs that nested loops over the inputs as they come find, which are sorted here. -/
theorem reads_nested_loops (conditions : List JoinCondition) (keys : Keys)
    (pageSize numBuffers : Nat) (left : Cursor σ) (right : Cursor τ) (root : TempRoot)
    (leftBatches rightBatches : List Batch)
    (h : CanJoin conditions keys pageSize numBuffers left.schema right.schema
      (leftBatches.flatMap (·.rows)) (rightBatches.flatMap (·.rows)))
    (hleft : left.Provides root leftBatches) (hright : right.Provides root rightBatches)
    (hleftMemory : (sortSpec pageSize numBuffers "left" keys.left).FitsMemory
      (pageSize / left.schema.rowSize) (leftBatches.flatMap (·.rows)).length)
    (hrightMemory : (sortSpec pageSize numBuffers "right" keys.right).FitsMemory
      (pageSize / right.schema.rowSize) (rightBatches.flatMap (·.rows)).length)
    (hroot : root.isPresent = true)
    (hleftNames : (sortSpec pageSize numBuffers "left" keys.left).HasFileNames
      (leftBatches.flatMap (·.rows)).length)
    (hrightNames : (sortSpec pageSize numBuffers "right" keys.right).HasFileNames
      (rightBatches.flatMap (·.rows)).length) :
    ∃ s t rows plain,
      (cursor pageSize numBuffers keys left right).openUp.Gives root
        (cursor pageSize numBuffers keys left right).start () s ∧
      (cursor pageSize numBuffers keys left right).drain.Gives root s
        (Batch.pages (pageSize / Schema.rowSize (left.schema ++ right.schema)) rows, none) t ∧
      nestedLoopJoin? keys.left keys.right
        ((leftBatches.flatMap (·.rows)).mergeSort (Row.precedesOn keys.left false))
        ((rightBatches.flatMap (·.rows)).mergeSort (Row.precedesOn keys.right false)) = some rows ∧
      nestedLoopJoin? keys.left keys.right (leftBatches.flatMap (·.rows))
        (rightBatches.flatMap (·.rows)) = some plain ∧
      rows.Perm (Row.sort plain) := by
  generalize hleftRows : leftBatches.flatMap (·.rows) = leftRows at *
  generalize hrightRows : rightBatches.flatMap (·.rows) = rightRows at *
  obtain ⟨o⟩ := JoinOrder.nonempty_of_areMatchable h.matchable (keys_spec h.resolved).1
  obtain ⟨s, t, hopen, hdrain⟩ := exists_gives_pairs h o hleft hright hleftRows hrightRows
    ⟨h.buffers, h.leftPage, hleftMemory, hleftNames, h.leftStorable⟩
    ⟨h.buffers, h.rightPage, hrightMemory, hrightNames, h.rightStorable⟩ hroot
  refine ⟨s, t, _, _, hopen, hdrain, ?_,
    o.nestedLoopJoin?_eq (List.Subset.refl _) (List.Subset.refl _), ?_⟩
  · have hleftSort : leftRows.mergeSort (Row.precedesOn keys.left false) =
        leftRows.mergeSort o.onLeft.le :=
      mergeSort_congr fun a ha b hb => o.onLeft.precedesOn_eq ha hb
    have hrightSort : rightRows.mergeSort (Row.precedesOn keys.right false) =
        rightRows.mergeSort o.onRight.le :=
      mergeSort_congr fun a ha b hb => o.onRight.precedesOn_eq ha hb
    rw [hleftSort, hrightSort]
    exact o.nestedLoopJoin?_eq (fun _ => List.mem_mergeSort.mp) fun _ => List.mem_mergeSort.mp
  · exact (o.pairs_perm (List.mergeSort_perm _ _) (List.mergeSort_perm _ _)).trans
      (Row.sort_perm _).symm

theorem fails_openUp_left {pageSize numBuffers : Nat} {left : Cursor σ} {right : Cursor τ}
    {root : TempRoot} {s : State σ τ} {e : Failure} (hbuffers : 3 ≤ numBuffers)
    (hpage : 1 ≤ pageSize / Schema.rowSize (left.schema ++ right.schema)) (hclosed : s.isOpen = false)
    (hleft : left.openUp.Fails root s.left.source e) :
    (openUp pageSize numBuffers left right).Fails root s e := by
  have hvalid : validateBuffers numBuffers = .ok () := if_neg (Nat.not_lt.mpr hbuffers)
  refine Act.ensures_get_bind.mpr ?_
  rw [if_neg (by simp [hclosed])]
  refine (Act.gives_ofExcept hvalid).bind_fails ?_
  refine (Act.gives_ofAnswer (Schema.pageCapacity_of_le hpage)).bind_fails ?_
  refine (Act.gives_modify _).bind_fails (Act.Fails.bind ?_)
  exact hleft

def leftPages : List Batch :=
  [⟨4, [[.int 1, .int 10], [.int 2, .int 20]]⟩, ⟨4, [[.float ⟨0x3ff0000000000000⟩, .int 11]]⟩]

def rightPages : List Batch :=
  [⟨4, [[.int 1, .int 30], [.int 3, .int 31]]⟩,
    ⟨4, [[.float ⟨0x3ff0000000000000⟩, .int 32], [.int 0, .int 33], [.int 1, .int 34]]⟩]

def childOf (table : String) (pages : List Batch) : Cursor Script :=
  Script.cursor table (Sample.intSchema table 2) ⟨[], pages.map fun page => .ok (some page), []⟩

theorem provides_leftPages : (childOf "l" leftPages).Provides ⟨true⟩ leftPages :=
  ⟨_, _, _, ⟨rfl, rfl⟩, ⟨_, none, .cons ⟨rfl, rfl⟩ (by decide) (.cons ⟨rfl, rfl⟩ (by decide)
    (.nil _)), ⟨rfl, rfl⟩, rfl⟩, ⟨rfl, rfl⟩⟩

theorem provides_rightPages : (childOf "r" rightPages).Provides ⟨true⟩ rightPages :=
  ⟨_, _, _, ⟨rfl, rfl⟩, ⟨_, none, .cons ⟨rfl, rfl⟩ (by decide) (.cons ⟨rfl, rfl⟩ (by decide)
    (.nil _)), ⟨rfl, rfl⟩, rfl⟩, ⟨rfl, rfl⟩⟩

/-- Each of two left rows with the three right rows that have its key. -/
def equalKeyPairs : List Row :=
  [[.int 1, .int 10, .int 1, .int 30], [.int 1, .int 10, .float ⟨0x3ff0000000000000⟩, .int 32],
    [.int 1, .int 10, .int 1, .int 34], [.float ⟨0x3ff0000000000000⟩, .int 11, .int 1, .int 30],
    [.float ⟨0x3ff0000000000000⟩, .int 11, .float ⟨0x3ff0000000000000⟩, .int 32],
    [.float ⟨0x3ff0000000000000⟩, .int 11, .int 1, .int 34]]

/-- The join of children on their first columns, on pages of 16 bytes. -/
def onFirst (numBuffers : Nat) (left right : Cursor Script) :
    Cursor (State (MergeSort.State Script) (MergeSort.State Script)) :=
  cursor 16 numBuffers ⟨[0], [0]⟩ left right

/-- The output has pages of one row, so every page but the last is full in the middle of a band. -/
theorem reads_nested_loops_equalKeys :
    ∃ s t, (onFirst 3 (childOf "l" leftPages) (childOf "r" rightPages)).openUp.Gives ⟨true⟩
        (onFirst 3 (childOf "l" leftPages) (childOf "r" rightPages)).start () s ∧
      (onFirst 3 (childOf "l" leftPages) (childOf "r" rightPages)).drain.Gives ⟨true⟩ s
        (Batch.pages 1 equalKeyPairs, none) t := by
  obtain ⟨s, t, rows, plain, hopen, hdrain, hrows, -⟩ := reads_nested_loops [⟨"c0", "c0"⟩]
    ⟨[0], [0]⟩ 16 3 (childOf "l" leftPages) (childOf "r" rightPages) ⟨true⟩ leftPages rightPages
    ⟨by decide, by decide, by decide, by decide, by decide, by decide, by decide, by decide⟩
    provides_leftPages provides_rightPages ⟨by decide, by decide, by decide⟩
    ⟨by decide, by decide, by decide⟩ rfl ⟨by decide, by decide⟩ ⟨by decide, by decide⟩
  have heq : nestedLoopJoin? [0] [0]
      (stableSort (Row.precedesOn [0] false) (leftPages.flatMap (·.rows)))
      (stableSort (Row.precedesOn [0] false) (rightPages.flatMap (·.rows))) =
        some equalKeyPairs := by
    decide +kernel
  rw [stableSort_eq_mergeSort, stableSort_eq_mergeSort] at heq
  obtain rfl := Option.some.inj (hrows.symm.trans heq)
  exact ⟨s, t, hopen, hdrain⟩

theorem isNoFloat_longPage {f : Field}
    (h : f ∈ ([MergeSort.longPage].flatMap (·.rows)).filterMap (·[0]?)) : f.IsNoFloat := by
  obtain ⟨row, hrow, hfield⟩ := List.mem_filterMap.mp h
  rw [MergeSort.mem_longPage hrow] at hfield
  obtain rfl := Option.some.inj hfield
  decide

theorem areOrderedOn_longPage :
    Row.AreOrderedOn [0] ([MergeSort.longPage].flatMap (·.rows)) := by
  refine ⟨fun row hrow => ?_, fun position hposition => ?_⟩
  · rw [MergeSort.mem_longPage hrow]
    decide
  · obtain rfl := List.mem_singleton.mp hposition
    exact .inl fun f hf => isNoFloat_longPage hf

theorem areMatchable_longPage :
    Row.AreMatchable [0] [0] ([MergeSort.longPage].flatMap (·.rows)) [] := by
  refine ⟨areOrderedOn_longPage.hasKey, by simp, fun positions hpositions => ?_⟩
  obtain rfl := List.mem_singleton.mp hpositions
  rw [List.filterMap_nil, List.append_nil]
  exact .inl fun f hf => isNoFloat_longPage hf

def unclosable : Cursor Script :=
  Script.cursor "l" (Sample.intSchema "l" 2) ⟨[], [], [some .io]⟩

/-- Without memory for its buffers a join fails, and so it does if its left input has to write a page
of 2^32 rows, whatever else is as it should be. It closes its inputs when it ends, so it fails at its
end if one of them cannot be closed. -/
theorem join_fails_beyond_limits :
    (CanJoin [⟨"c0", "c0"⟩] ⟨[0], [0]⟩ 16 0x1000000000000000 (childOf "l" leftPages).schema
        (childOf "r" rightPages).schema (leftPages.flatMap (·.rows)) (rightPages.flatMap (·.rows)) ∧
      (childOf "l" leftPages).Provides ⟨true⟩ leftPages ∧
      (childOf "r" rightPages).Provides ⟨true⟩ rightPages ∧
      (onFirst 0x1000000000000000 (childOf "l" leftPages) (childOf "r" rightPages)).openUp.Fails ⟨true⟩
        (onFirst 0x1000000000000000 (childOf "l" leftPages) (childOf "r" rightPages)).start .outOfMemory) ∧
    (CanJoin [⟨"c0", "c0"⟩] ⟨[0], [0]⟩ 0x800000000 3 MergeSort.longChild.schema
        (childOf "r" []).schema ([MergeSort.longPage].flatMap (·.rows)) [] ∧
      MergeSort.longChild.Provides ⟨true⟩ [MergeSort.longPage] ∧
      (childOf "r" []).Provides ⟨true⟩ [] ∧
      ∃ path, (cursor 0x800000000 3 ⟨[0], [0]⟩ MergeSort.longChild (childOf "r" [])).openUp.Fails
        ⟨true⟩ (cursor 0x800000000 3 ⟨[0], [0]⟩ MergeSort.longChild (childOf "r" [])).start
        (.error (.runFile path .batchTooLarge))) ∧
    (CanJoin [⟨"c0", "c0"⟩] ⟨[0], [0]⟩ 16 3 unclosable.schema (childOf "r" []).schema [] [] ∧
      unclosable.openUp.Gives ⟨true⟩ unclosable.start () unclosable.start ∧
      unclosable.Delivers ⟨true⟩ unclosable.start [] unclosable.start ∧
      (childOf "r" []).Provides ⟨true⟩ [] ∧
      ∃ s t, (onFirst 3 unclosable (childOf "r" [])).openUp.Gives ⟨true⟩
          (onFirst 3 unclosable (childOf "r" [])).start () s ∧
        (onFirst 3 unclosable (childOf "r" [])).drain.Gives ⟨true⟩ s ([], some (.error .io)) t) := by
  have hempty : (childOf "r" []).Provides ⟨true⟩ [] :=
    ⟨_, _, _, ⟨rfl, rfl⟩, ⟨_, none, .nil _, ⟨rfl, rfl⟩, rfl⟩, ⟨rfl, rfl⟩⟩
  have hlong : MergeSort.longChild.Provides ⟨true⟩ [MergeSort.longPage] := by
    have hne : MergeSort.longPage.rows ≠ [] :=
      List.length_pos_iff.mp (by rw [MergeSort.length_longPage]; decide)
    exact ⟨_, _, _, ⟨rfl, rfl⟩, ⟨_, none, .cons ⟨rfl, rfl⟩ hne (.nil _), ⟨rfl, rfl⟩, rfl⟩,
      ⟨rfl, rfl⟩⟩
  have hordered : Row.AreOrderedOn [0] MergeSort.longPage.rows := by
    have h := areOrderedOn_longPage
    rwa [List.flatMap_cons, List.flatMap_nil, List.append_nil] at h
  let leftSort := sortSpec 0x800000000 3 "left" [0]
  obtain ⟨path, hfails⟩ := MergeSort.exists_fails_openUp leftSort MergeSort.longChild ⟨true⟩
    (s := (MergeSort.cursor leftSort MergeSort.longChild).start) hordered (by decide) (by decide)
    (by decide) (by rw [MergeSort.length_longPage]) (by rw [MergeSort.length_longPage]; decide)
    (by decide) (by decide) (by decide) rfl rfl ⟨rfl, rfl⟩ ⟨rfl, rfl⟩ ⟨rfl, rfl⟩
  refine ⟨⟨?_, provides_leftPages, provides_rightPages, rfl⟩,
    ⟨?_, hlong, hempty, path, fails_openUp_left (by decide) (by decide) rfl hfails⟩,
    ?_, ⟨rfl, rfl⟩, ⟨_, none, .nil _, ⟨rfl, rfl⟩, rfl⟩, hempty, _, _, ⟨rfl, rfl⟩, ⟨rfl, rfl⟩⟩
  · exact ⟨by decide, by decide, by decide, by decide, by decide, by decide, by decide, by decide⟩
  · refine ⟨by decide, by decide, by decide, by decide, by decide, areMatchable_longPage, ?_,
      by decide⟩
    intro row hrow
    rw [MergeSort.mem_longPage hrow]
    decide
  · exact ⟨by decide, by decide, by decide, by decide, by decide, by decide, by decide, by decide⟩

end Join
end PagedQuery
