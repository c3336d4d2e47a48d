import PagedQuery.Proofs.PlanRows

/-!
# Plans as page machines

Every plan over rows of its schemas is a page machine: it opens always or never, and once open it
hands out the pages of one list. The rows on these pages are the result of the plan, so they conform
to its schema and do not depend on the sizes at its nodes. All this is for plans whose pages and
blocks fit into memory.
-/

namespace PagedQuery

/-- Whether there is memory for the rows of a page. -/
def FitsPage (pageSize : Nat) (schema : Schema) : Prop :=
  fitsMemory (pageSize / schema.rowSize) Batch.rowRoom = true

namespace Plan

/-- Whether there is memory for the pages and the blocks that the nodes of a plan set aside. -/
def FitsMemory : Plan → Prop
  | .rows _ _ _ | .script _ _ _ => True
  | .project pageSize fields child =>
    FitsPage pageSize (Project.outputSchema fields child.schema) ∧ child.FitsMemory
  | .sort spec child => spec.FitsBlock child.schema ∧ child.FitsMemory
  | .distinct pageSize numBuffers child =>
    (Distinct.sortSpec pageSize numBuffers child.schema).FitsBlock child.schema ∧ child.FitsMemory
  | .aggregate pageSize columns child =>
    FitsPage pageSize child.schema ∧
      FitsPage pageSize (Aggregate.outputSchema columns child.schema) ∧ child.FitsMemory
  | .join pageSize numBuffers conditions left right =>
    let keys := joinKeys conditions left.schema right.schema
    (Join.sortSpec pageSize numBuffers "left" keys.left).FitsBlock left.schema ∧
      (Join.sortSpec pageSize numBuffers "right" keys.right).FitsBlock right.schema ∧
      FitsPage pageSize (left.schema ++ right.schema) ∧ left.FitsMemory ∧ right.FitsMemory

/-- Whether the widths of the rows of every node add up to a word. -/
def FitsWords : Plan → Prop
  | .rows _ schema _ | .script _ schema _ => schema.rowSize ≤ maxWord
  | .project _ fields child =>
    (Project.outputSchema fields child.schema).rowSize ≤ maxWord ∧ child.FitsWords
  | .sort _ child | .distinct _ _ child => child.schema.rowSize ≤ maxWord ∧ child.FitsWords
  | .aggregate _ columns child =>
    (Aggregate.outputSchema columns child.schema).rowSize ≤ maxWord ∧ child.FitsWords
  | .join _ _ _ left right =>
    Schema.rowSize (left.schema ++ right.schema) ≤ maxWord ∧ left.FitsWords ∧ right.FitsWords

theorem FitsWords.rowSize_le {plan : Plan} (h : plan.FitsWords) : plan.schema.rowSize ≤ maxWord := by
  cases plan with
  | rows | script => exact h
  | project | sort | distinct | aggregate | join => exact h.1

instance (pageSize : Nat) (schema : Schema) : Decidable (FitsPage pageSize schema) :=
  inferInstanceAs (Decidable (_ = true))

instance (spec : SortSpec) (schema : Schema) : Decidable (spec.FitsBlock schema) :=
  decidable_of_iff (fitsMemory spec.numBuffers Block.pageRoom = true ∧
    FitsPage spec.pageSize schema) ⟨fun h => ⟨h.1, h.2⟩, fun h => ⟨h.block, h.page⟩⟩

instance decidableFitsMemory : (plan : Plan) → Decidable plan.FitsMemory
  | .rows _ _ _ | .script _ _ _ => inferInstanceAs (Decidable True)
  | .project _ _ child =>
    have := decidableFitsMemory child
    inferInstanceAs (Decidable (_ ∧ _))
  | .sort _ child =>
    have := decidableFitsMemory child
    inferInstanceAs (Decidable (_ ∧ _))
  | .distinct _ _ child =>
    have := decidableFitsMemory child
    inferInstanceAs (Decidable (_ ∧ _))
  | .aggregate _ _ child =>
    have := decidableFitsMemory child
    inferInstanceAs (Decidable (_ ∧ _ ∧ _))
  | .join _ _ _ left right =>
    have := decidableFitsMemory left
    have := decidableFitsMemory right
    inferInstanceAs (Decidable (_ ∧ _ ∧ _ ∧ _ ∧ _))

instance decidableFitsWords : (plan : Plan) → Decidable plan.FitsWords
  | .rows _ schema _ | .script _ schema _ => inferInstanceAs (Decidable (schema.rowSize ≤ maxWord))
  | .project _ _ child | .sort _ child | .distinct _ _ child | .aggregate _ _ child =>
    have := decidableFitsWords child
    inferInstanceAs (Decidable (_ ∧ _))
  | .join _ _ _ left right =>
    have := decidableFitsWords left
    have := decidableFitsWords right
    inferInstanceAs (Decidable (_ ∧ _ ∧ _))

/-- The pages of a plan, or why it does not open. -/
def feed (root : TempRoot) : Plan → Feed
  | .rows pageSize schema table => RowSource.feed pageSize schema table
  | .script _ _ _ => .ok []
  | .project pageSize fields child =>
    Project.feed pageSize fields child.schema (child.feed root)
  | .sort spec child => MergeSort.feed spec child.schema root (child.feed root)
  | .distinct pageSize numBuffers child =>
    Distinct.feed pageSize child.schema (MergeSort.feed
      (Distinct.sortSpec pageSize numBuffers child.schema) child.schema root (child.feed root))
  | .aggregate pageSize columns child =>
    Aggregate.feed pageSize columns child.schema root (child.feed root)
  | .join pageSize numBuffers conditions left right =>
    let keys := joinKeys conditions left.schema right.schema
    Join.feed pageSize numBuffers keys (left.schema ++ right.schema)
      (MergeSort.feed (Join.sortSpec pageSize numBuffers "left" keys.left) left.schema root
        (left.feed root))
      (MergeSort.feed (Join.sortSpec pageSize numBuffers "right" keys.right) right.schema root
        (right.feed root))

theorem schema_cursor (plan : Plan) : plan.cursor.schema = plan.schema := by
  induction plan with
  | rows => rfl
  | script => rfl
  | project _ fields child ih => exact congrArg (Project.outputSchema fields) ih
  | sort spec child ih => exact ih
  | distinct _ _ child ih => exact ih
  | aggregate _ columns child ih => exact congrArg (Aggregate.outputSchema columns) ih
  | join _ _ conditions left right ihLeft ihRight => exact congrArg₂ (· ++ ·) ihLeft ihRight

theorem lt_of_joinKeys {conditions : List JoinCondition} {left right : Schema}
    {found : List Nat × List Nat} (h : Join.keys conditions left right = .ok found) :
    (joinKeys conditions left right).left.length = (joinKeys conditions left right).right.length ∧
      (∀ i ∈ (joinKeys conditions left right).left, i < left.length) ∧
      ∀ i ∈ (joinKeys conditions left right).right, i < right.length := by
  unfold joinKeys
  rw [h]
  exact Join.keys_spec h

/-- The operator of a plan is the machine of its feed, which serves the result of the plan. -/
structure IsMachine (plan : Plan) (root : TempRoot) : Prop where
  serves : (plan.feed root).Serves (¬plan.FitsWords) plan.result
  follows : ∃ p, plan.cursor.Follows root (plan.feed root) p

namespace IsMachine

variable {plan child : Plan} {root : TempRoot}

/-- What is not wide does not stand on what is. -/
theorem serves_above (h : child.IsMachine root) (plan : Plan)
    (hchild : plan.FitsWords → child.FitsWords) :
    (child.feed root).Serves (¬plan.FitsWords) child.result :=
  h.serves.mono fun hwide hwords => hwide (hchild hwords)

theorem conforms (h : plan.IsMachine root) (hvalid : plan.validate = .ok ())
    (htyped : plan.HasTypedRows) (pages : List Batch) (hpages : plan.feed root = .ok pages) :
    ∀ row ∈ pages.flatMap (·.rows), row.Conforms plan.schema := by
  have hserves := h.serves
  rw [hpages] at hserves
  exact conforms_result hvalid htyped hserves

theorem sort (h : child.IsMachine root) (hvalid : child.validate = .ok ())
    (htyped : child.HasTypedRows) (spec : SortSpec) (hmemory : spec.FitsBlock child.schema) :
    (Plan.sort spec child).IsMachine root := by
  obtain ⟨p, hfollows⟩ := h.follows
  have hrows := h.conforms hvalid htyped
  have hserves := MergeSort.serves_feed spec root
    (h.serves_above (.sort spec child) fun hwords => hwords.2) hrows hmemory
    fun hwide hwords => hwide hwords.1
  refine ⟨hserves, MergeSort.standing p, ?_⟩
  rw [← child.schema_cursor] at hrows
  have hsorts := MergeSort.follows spec hfollows hrows
  rw [child.schema_cursor] at hsorts
  exact hsorts

theorem project (h : child.IsMachine root) (hvalid : child.validate = .ok ())
    (htyped : child.HasTypedRows) {pageSize : Nat} {fields : List Nat}
    (hfields : Project.validate fields child.schema = .ok ())
    (hpage : FitsPage pageSize (Project.outputSchema fields child.schema)) :
    (Plan.project pageSize fields child).IsMachine root := by
  obtain ⟨p, hfollows⟩ := h.follows
  have hkeys : ∀ pages, child.feed root = .ok pages → ∀ row ∈ pages.flatMap (·.rows),
      Row.HasKey fields row := fun pages hpages row hrow =>
    (h.conforms hvalid htyped pages hpages row hrow).hasKey (Project.lt_of_validate hfields)
  unfold FitsPage at hpage
  rw [← child.schema_cursor] at hpage
  have hprojects := Project.follows pageSize fields hfollows hkeys hpage
  rw [child.schema_cursor] at hprojects
  have hserves := Project.serves_feed pageSize fields child.schema
    (h.serves_above (.project pageSize fields child) fun hwords => hwords.2)
    fun hwide hwords => hwide hwords.1
  exact ⟨hserves, _, hprojects⟩

theorem distinct (h : child.IsMachine root) (hvalid : child.validate = .ok ())
    (htyped : child.HasTypedRows) {pageSize numBuffers : Nat}
    (hmemory : (Distinct.sortSpec pageSize numBuffers child.schema).FitsBlock child.schema) :
    (Plan.distinct pageSize numBuffers child).IsMachine root := by
  have hsort := h.sort hvalid htyped (Distinct.sortSpec pageSize numBuffers child.schema) hmemory
  obtain ⟨p, hfollows⟩ := hsort.follows
  have hpage := hmemory.page
  rw [← child.schema_cursor] at hfollows hpage
  have hkeeps : (Distinct.cursor pageSize numBuffers child.cursor).Follows root
      (Distinct.feed pageSize child.cursor.schema (MergeSort.feed
        (Distinct.sortSpec pageSize numBuffers child.cursor.schema) child.schema root
        (child.feed root))) _ := Distinct.follows pageSize hfollows hpage
  rw [child.schema_cursor] at hkeeps
  have hserves := Distinct.serves_feed pageSize child.schema
    (hsort.serves_above (.distinct pageSize numBuffers child) id)
    fun hwide hwords => hwide hwords.1
  exact ⟨hserves, _, hkeeps⟩

theorem aggregate (h : child.IsMachine root) (hvalid : child.validate = .ok ())
    (htyped : child.HasTypedRows) {pageSize : Nat} {columns : List AggregateColumn}
    (hcolumns : Aggregate.validate columns child.schema = .ok ())
    (hspool : FitsPage pageSize child.schema)
    (hpage : FitsPage pageSize (Aggregate.outputSchema columns child.schema)) :
    (Plan.aggregate pageSize columns child).IsMachine root := by
  obtain ⟨p, hfollows⟩ := h.follows
  have hrows := h.conforms hvalid htyped
  have hwithin := Aggregate.lt_of_validate hcolumns
  have hserves := Aggregate.serves_feed pageSize root
    (h.serves_above (.aggregate pageSize columns child) fun hwords => hwords.2) hwithin hrows
    hspool (fun hwide hwords => hwide hwords.1) fun hwide hwords => hwide hwords.2.rowSize_le
  unfold FitsPage at hpage
  rw [← child.schema_cursor] at hrows hwithin hpage
  have haggregates := Aggregate.follows pageSize hfollows hwithin hrows hpage
  rw [child.schema_cursor] at haggregates
  exact ⟨hserves, _, haggregates⟩

theorem join {left right : Plan} (hleft : left.IsMachine root) (hright : right.IsMachine root)
    (hleftValid : left.validate = .ok ()) (hrightValid : right.validate = .ok ())
    (hleftTyped : left.HasTypedRows) (hrightTyped : right.HasTypedRows)
    {conditions : List JoinCondition} {found : List Nat × List Nat} {pageSize numBuffers : Nat}
    (hkeys : Join.keys conditions left.schema right.schema = .ok found)
    (hmemory : (Plan.join pageSize numBuffers conditions left right).FitsMemory) :
    (Plan.join pageSize numBuffers conditions left right).IsMachine root := by
  obtain ⟨hlength, hleftKeys, hrightKeys⟩ := lt_of_joinKeys hkeys
  obtain ⟨hleftBlock, hrightBlock, hpage, -⟩ := hmemory
  have hleftSort := hleft.sort hleftValid hleftTyped _ hleftBlock
  have hrightSort := hright.sort hrightValid hrightTyped _ hrightBlock
  obtain ⟨p, hleftFollows⟩ := hleftSort.follows
  obtain ⟨q, hrightFollows⟩ := hrightSort.follows
  have hserves := Join.serves_feed pageSize numBuffers
    (joinKeys conditions left.schema right.schema) (left.schema ++ right.schema)
    (hleftSort.serves_above (.join pageSize numBuffers conditions left right)
      fun hwords => ⟨hwords.2.1.rowSize_le, hwords.2.1⟩)
    (hrightSort.serves_above _ fun hwords => ⟨hwords.2.2.rowSize_le, hwords.2.2⟩)
    fun hwide hwords => hwide hwords.1
  have hjoins := Join.follows pageSize numBuffers hlength hleftFollows hrightFollows
    (fun pages hpages row hrow =>
      (hleftSort.conforms hleftValid hleftTyped pages hpages row hrow).hasKey hleftKeys)
    (fun pages hpages row hrow =>
      (hrightSort.conforms hrightValid hrightTyped pages hpages row hrow).hasKey hrightKeys)
    (by rw [schema_cursor, schema_cursor]; exact hpage)
  rw [schema_cursor, schema_cursor] at hjoins
  exact ⟨hserves, _, hjoins⟩

end IsMachine

/-- Every plan over rows of its schemas is a page machine. -/
theorem isMachine {plan : Plan} (hvalid : plan.validate = .ok ()) (htyped : plan.HasTypedRows)
    (hmemory : plan.FitsMemory) (root : TempRoot) : plan.IsMachine root := by
  induction plan with
  | rows pageSize schema table =>
    exact ⟨RowSource.serves_feed pageSize schema table id, _,
      RowSource.follows pageSize schema table root⟩
  | script => cases htyped
  | project pageSize fields child ih =>
    obtain ⟨_, hchild, hfields⟩ := exists_of_bind_eq_ok hvalid
    exact (ih hchild htyped hmemory.2).project hchild htyped hfields hmemory.1
  | sort spec child ih => exact (ih hvalid htyped hmemory.2).sort hvalid htyped spec hmemory.1
  | distinct pageSize numBuffers child ih =>
    exact (ih hvalid htyped hmemory.2).distinct hvalid htyped hmemory.1
  | aggregate pageSize columns child ih =>
    obtain ⟨_, hchild, hcolumns⟩ := exists_of_bind_eq_ok hvalid
    obtain ⟨hspool, hpage, hmemory⟩ := hmemory
    exact (ih hchild htyped hmemory).aggregate hchild htyped hcolumns hspool hpage
  | join pageSize numBuffers conditions left right ihLeft ihRight =>
    obtain ⟨_, hleft, hvalid⟩ := exists_of_bind_eq_ok hvalid
    obtain ⟨_, hright, hvalid⟩ := exists_of_bind_eq_ok hvalid
    obtain ⟨_, hkeys, -⟩ := exists_of_bind_eq_ok hvalid
    have hmachines := (ihLeft hleft htyped.1 hmemory.2.2.2.1).join
      (ihRight hright htyped.2 hmemory.2.2.2.2)
    exact hmachines hleft hright htyped.1 htyped.2 hkeys hmemory

theorem IsMachine.exists_feed {plan : Plan} {root : TempRoot} (h : plan.IsMachine root)
    (hwords : plan.FitsWords) :
    ∃ answer : Except Error (List Batch), plan.feed root = Failure.ofExcept answer := by
  have hserves := h.serves
  cases hfeed : plan.feed root with
  | ok pages => exact ⟨.ok pages, rfl⟩
  | error f =>
    rw [hfeed] at hserves
    obtain ⟨e, -, rfl⟩ := OpeningFailure.exists_fault hserves fun hwide => hwide hwords
    exact ⟨.error e, rfl⟩

/-- Whatever calls are made of a plan, it answers as the machine of a fixed list of pages does, or of a
fixed failure with which it never opens. Unless widths do not add up to a word, that is an error. A
call to open that has failed must be followed by a call to close before the next. -/
theorem answers_as_machine (plan : Plan) (hvalid : plan.validate = .ok ())
    (htyped : plan.HasTypedRows) (hmemory : plan.FitsMemory) (root : TempRoot) :
    ∃ feed : Feed,
      (plan.FitsWords → ∃ answer : Except Error (List Batch), feed = Failure.ofExcept answer) ∧
      ∀ calls, closesFailures false (plan.cursor.events root plan.cursor.start calls) = true →
        plan.cursor.events root plan.cursor.start calls = feed.events none calls := by
  have hmachine := isMachine hvalid htyped hmemory root
  obtain ⟨p, hfollows⟩ := hmachine.follows
  exact ⟨plan.feed root, hmachine.exists_feed, fun _ hcloses => hfollows.events_eq hcloses⟩

/-- Rows with two integers, some of them equal. -/
def someRows : List Row := Sample.intRows [[1, 10], [2, 20], [1, 10], [3, 5], [2, 7]]

def source (table : String) (pageSize : Nat) : Plan :=
  .rows pageSize (Sample.intSchema table 2) someRows

/-- The sums of the second column for rows that are joined with the different ones among them. -/
def joined (pageSize numBuffers : Nat) : Plan :=
  .project pageSize [0, 1, 3]
    (.join pageSize numBuffers [⟨"c0", "c0"⟩] (.distinct pageSize numBuffers (source "l" pageSize))
      (.aggregate pageSize [.plain 0, .aggregate .sum 1]
        (.sort ⟨pageSize, numBuffers, "s", [1], true⟩ (source "r" pageSize))))

/-- A plan with all operators is opened, read, closed early and read again. -/
theorem answers_as_machine_joined :
    ∃ answer, (joined 16 3).cursor.events ⟨true⟩ (joined 16 3).cursor.start
        [.next, .openUp, .next, .openUp, .next, .close, .next, .openUp, .next] =
      Feed.events (Failure.ofExcept answer) none
        [.next, .openUp, .next, .openUp, .next, .close, .next, .openUp, .next] := by
  obtain ⟨feed, hwords, hfeed⟩ :=
    answers_as_machine (joined 16 3) (by decide) (by decide) (by decide) ⟨true⟩
  obtain ⟨answer, rfl⟩ := hwords (by decide)
  exact ⟨answer, hfeed _ (by decide +kernel)⟩

def oversized : Plan :=
  .project 0x2000000000000000 [0] (.rows 0x2000000000000000 (Sample.intSchema "t" 1) [[.int 1]])

/-- The projection opens, and then there is no memory for its page. -/
theorem no_machine_oversized :
    oversized.validate = .ok () ∧ oversized.HasTypedRows ∧
      ¬∃ feed : Except Error (List Batch), ∀ calls,
        closesFailures false (oversized.cursor.events ⟨true⟩ oversized.cursor.start calls) = true →
        oversized.cursor.events ⟨true⟩ oversized.cursor.start calls =
          Feed.events (Failure.ofExcept feed) none calls := by
  refine ⟨by decide, by decide, ?_⟩
  rintro ⟨feed, hfeed⟩
  have hevents : oversized.cursor.events ⟨true⟩ oversized.cursor.start [.openUp, .next] =
      [.opened (.ok ()), .paged (.error .outOfMemory)] := rfl
  have hmachine := hfeed [.openUp, .next] (by rw [hevents]; rfl)
  rw [hevents] at hmachine
  cases feed with
  | error e => cases hmachine
  | ok pages =>
    cases pages with
    | nil => cases hmachine
    | cons page pages => cases hmachine

/-- A plan that opens is executed with its result. -/
theorem IsMachine.exists_gives_execute {plan : Plan} {root : TempRoot} (h : plan.IsMachine root)
    {s : plan.State} (hopen : plan.cursor.openUp.Gives root plan.cursor.start () s) :
    ∃ rows t, plan.result = .ok rows ∧ plan.cursor.execute.Gives root plan.cursor.start rows t := by
  obtain ⟨p, hfollows⟩ := h.follows
  have hserves := h.serves
  obtain ⟨pages, hpages⟩ := hfollows.exists_pages_of_gives hopen
  rw [hpages] at hfollows hserves
  obtain ⟨t, hexecute⟩ := hfollows.exists_gives_execute
  exact ⟨_, t, hserves, hexecute⟩

/-- Executing a plan gives the same rows in the same order, whatever the sizes at its nodes are with
which it opens. -/
theorem execute_eq_of_erase_eq (plan plan' : Plan) (hsame : plan.erase = plan'.erase)
    (hvalid : plan.validate = .ok ()) (htyped : plan.HasTypedRows) (hmemory : plan.FitsMemory)
    (hmemory' : plan'.FitsMemory) (root root' : TempRoot) (s : plan.State) (s' : plan'.State)
    (hopen : plan.cursor.openUp.Gives root plan.cursor.start () s)
    (hopen' : plan'.cursor.openUp.Gives root' plan'.cursor.start () s') :
    ∃ rows t t', plan.cursor.execute.Gives root plan.cursor.start rows t ∧
      plan'.cursor.execute.Gives root' plan'.cursor.start rows t' := by
  have hvalid' : plan'.validate = .ok () := by rwa [← plan'.validate_erase, ← hsame, validate_erase]
  have htyped' : plan'.HasTypedRows := by
    rwa [← plan'.hasTypedRows_erase, ← hsame, hasTypedRows_erase]
  obtain ⟨rows, t, hresult, hexecute⟩ :=
    (isMachine hvalid htyped hmemory root).exists_gives_execute hopen
  obtain ⟨rows', t', hresult', hexecute'⟩ :=
    (isMachine hvalid' htyped' hmemory' root').exists_gives_execute hopen'
  rw [result_congr hsame, hresult'] at hresult
  obtain rfl := Except.ok.inj hresult
  exact ⟨rows', t, t', hexecute, hexecute'⟩

/-- Pages of two rows and many runs, or a single page and a single run. -/
theorem execute_eq_of_erase_eq_joined :
    ∃ rows t t', (joined 16 3).cursor.execute.Gives ⟨true⟩ (joined 16 3).cursor.start rows t ∧
      (joined 4096 50).cursor.execute.Gives ⟨true⟩ (joined 4096 50).cursor.start rows t' := by
  have hopen : ((joined 16 3).cursor.openUp.run ⟨true⟩
      (joined 16 3).cursor.start).answer = .ok () := by
    decide +kernel
  have hopen' : ((joined 4096 50).cursor.openUp.run ⟨true⟩
      (joined 4096 50).cursor.start).answer = .ok () := by
    decide +kernel
  exact execute_eq_of_erase_eq (joined 16 3) (joined 4096 50) rfl (by decide) (by decide) (by decide)
    (by decide) ⟨true⟩ ⟨true⟩ _ _ ⟨hopen, rfl⟩ ⟨hopen', rfl⟩

/-- The row of a small projection. Without memory for its page the projection opens, but it does not
give the row. -/
theorem execute_ne_oversized :
    let small := Plan.project 16 [0] (.rows 16 (Sample.intSchema "t" 1) [[.int 1]])
    small.erase = oversized.erase ∧ small.validate = .ok () ∧ small.HasTypedRows ∧
      (small.cursor.openUp.run ⟨true⟩ small.cursor.start).answer = .ok () ∧
      (oversized.cursor.openUp.run ⟨true⟩ oversized.cursor.start).answer = .ok () ∧
      (small.cursor.execute.run ⟨true⟩ small.cursor.start).answer = .ok [[.int 1]] ∧
      (oversized.cursor.execute.run ⟨true⟩ oversized.cursor.start).answer = .error .outOfMemory :=
  ⟨rfl, by decide, by decide, rfl, rfl, by decide +kernel, by decide +kernel⟩

end Plan
end PagedQuery
