import Mathlib.Data.String.Basic
import PagedQuery.Proofs.LongPages
import PagedQuery.Proofs.PlanMachine

/-!
# What plans answer

The nodes of a plan over rows of its schemas give rows of their own schemas and fail for ordinary
reasons only: a call to open for one that the caller can meet, a call for a page if the node is not
open, and a call to close never. No position is out of range, and none of the errors is met that stand
for a state that cannot be.
-/

namespace PagedQuery

/-- Whether the answer to a call is one that a node with this schema is meant to give. -/
def Event.IsProper (schema : Schema) : Event → Prop
  | .opened (.ok _) => True
  | .opened (.error f) => ∃ e, OpeningFault e ∧ f = .error e
  | .paged (.ok none) => True
  | .paged (.ok (some batch)) => ∀ row ∈ batch.rows, row.Conforms schema
  | .paged (.error f) => f = .error .notOpen
  | .closed (.ok _) => True
  | .closed (.error _) => False

namespace Feed

variable {feed : Feed} {schema : Schema}

theorem isProper_respond (hfault : ∀ f, feed = .error f → ∃ e, OpeningFault e ∧ f = .error e)
    (hrows : ∀ pages, feed = .ok pages → ∀ row ∈ pages.flatMap (·.rows), row.Conforms schema)
    (place : Option Nat) (call : Call) : (feed.respond place call).1.IsProper schema := by
  cases call with
  | openUp =>
    cases place with
    | some k => exact trivial
    | none =>
      cases feed with
      | ok pages => exact trivial
      | error f => exact hfault f rfl
  | next =>
    cases place with
    | none => exact rfl
    | some k =>
      cases hpage : (feed.toOption.getD [])[k]? with
      | none =>
        simp only [respond, hpage]
        exact trivial
      | some batch =>
        simp only [respond, hpage]
        cases feed with
        | error f => cases hpage
        | ok pages =>
          intro row hrow
          exact hrows pages rfl row (List.mem_flatMap.mpr ⟨batch, List.mem_of_getElem? hpage, hrow⟩)
  | close => cases place <;> exact trivial

theorem isProper_events (hfault : ∀ f, feed = .error f → ∃ e, OpeningFault e ∧ f = .error e)
    (hrows : ∀ pages, feed = .ok pages → ∀ row ∈ pages.flatMap (·.rows), row.Conforms schema)
    (place : Option Nat) (calls : List Call) :
    ∀ event ∈ feed.events place calls, event.IsProper schema := by
  induction calls generalizing place with
  | nil => exact List.forall_mem_nil _
  | cons call calls ih =>
    exact List.forall_mem_cons.mpr ⟨isProper_respond hfault hrows place call, ih _⟩

end Feed

namespace Plan

/-- The nodes of a plan, each as the plan below it. A duplicate elimination and a join have sorts of
their own. -/
def nodes : Plan → List Plan
  | .rows pageSize schema table => [.rows pageSize schema table]
  | .script name schema answers => [.script name schema answers]
  | .project pageSize fields child => .project pageSize fields child :: child.nodes
  | .sort spec child => .sort spec child :: child.nodes
  | .distinct pageSize numBuffers child =>
    .distinct pageSize numBuffers child ::
      .sort (Distinct.sortSpec pageSize numBuffers child.schema) child :: child.nodes
  | .aggregate pageSize columns child => .aggregate pageSize columns child :: child.nodes
  | .join pageSize numBuffers conditions left right =>
    let keys := joinKeys conditions left.schema right.schema
    .join pageSize numBuffers conditions left right ::
      .sort (Join.sortSpec pageSize numBuffers "left" keys.left) left ::
      .sort (Join.sortSpec pageSize numBuffers "right" keys.right) right ::
      (left.nodes ++ right.nodes)

theorem nodes_spec {plan : Plan} (hvalid : plan.validate = .ok ()) (htyped : plan.HasTypedRows)
    (hmemory : plan.FitsMemory) (hwords : plan.FitsWords) :
    ∀ node ∈ plan.nodes,
      node.validate = .ok () ∧ node.HasTypedRows ∧ node.FitsMemory ∧ node.FitsWords := by
  induction plan with
  | rows | script => exact List.forall_mem_singleton.mpr ⟨hvalid, htyped, hmemory, hwords⟩
  | project pageSize fields child ih =>
    obtain ⟨_, hchild, -⟩ := exists_of_bind_eq_ok hvalid
    exact List.forall_mem_cons.mpr
      ⟨⟨hvalid, htyped, hmemory, hwords⟩, ih hchild htyped hmemory.2 hwords.2⟩
  | sort spec child ih =>
    exact List.forall_mem_cons.mpr
      ⟨⟨hvalid, htyped, hmemory, hwords⟩, ih hvalid htyped hmemory.2 hwords.2⟩
  | distinct pageSize numBuffers child ih =>
    exact List.forall_mem_cons.mpr ⟨⟨hvalid, htyped, hmemory, hwords⟩,
      List.forall_mem_cons.mpr
        ⟨⟨hvalid, htyped, hmemory, hwords⟩, ih hvalid htyped hmemory.2 hwords.2⟩⟩
  | aggregate pageSize columns child ih =>
    obtain ⟨_, hchild, -⟩ := exists_of_bind_eq_ok hvalid
    exact List.forall_mem_cons.mpr
      ⟨⟨hvalid, htyped, hmemory, hwords⟩, ih hchild htyped hmemory.2.2 hwords.2⟩
  | join pageSize numBuffers conditions left right ihLeft ihRight =>
    have ⟨hleftBlock, hrightBlock, _, hleftMemory, hrightMemory⟩ := hmemory
    obtain ⟨_, hleft, hrest⟩ := exists_of_bind_eq_ok hvalid
    obtain ⟨_, hright, -⟩ := exists_of_bind_eq_ok hrest
    have ⟨_, hleftWords, hrightWords⟩ := hwords
    refine List.forall_mem_cons.mpr ⟨⟨hvalid, htyped, hmemory, hwords⟩, List.forall_mem_cons.mpr
      ⟨⟨hleft, htyped.1, ⟨hleftBlock, hleftMemory⟩, hleftWords.rowSize_le, hleftWords⟩,
        List.forall_mem_cons.mpr
          ⟨⟨hright, htyped.2, ⟨hrightBlock, hrightMemory⟩, hrightWords.rowSize_le, hrightWords⟩,
            List.forall_mem_append.mpr ⟨?_, ?_⟩⟩⟩⟩
    · exact ihLeft hleft htyped.1 hleftMemory hleftWords
    · exact ihRight hright htyped.2 hrightMemory hrightWords

/-- Every node of a plan over rows of its schemas answers every call properly, if a call to open that
has failed is followed by a call to close before the next. -/
theorem answers_properly (plan : Plan) (hvalid : plan.validate = .ok ()) (htyped : plan.HasTypedRows)
    (hmemory : plan.FitsMemory) (hwords : plan.FitsWords) (root : TempRoot) (node : Plan)
    (hnode : node ∈ plan.nodes) (calls : List Call)
    (hcloses : closesFailures false (node.cursor.events root node.cursor.start calls) = true) :
    ∀ event ∈ node.cursor.events root node.cursor.start calls, event.IsProper node.schema := by
  obtain ⟨hvalid, htyped, hmemory, hwords⟩ := nodes_spec hvalid htyped hmemory hwords node hnode
  have hmachine := isMachine hvalid htyped hmemory root
  obtain ⟨p, hfollows⟩ := hmachine.follows
  rw [hfollows.events_eq hcloses]
  refine Feed.isProper_events (fun f hfeed => ?_) (hmachine.conforms hvalid htyped) none calls
  have hserves := hmachine.serves
  rw [hfeed] at hserves
  exact OpeningFailure.exists_fault hserves fun hwide => hwide hwords

/-- A join below a projection, as it answers before it is opened, while it is read and once it is
closed. -/
theorem answers_properly_joined :
    let join := Plan.join 16 3 [⟨"c0", "c0"⟩] (.distinct 16 3 (source "l" 16))
      (.aggregate 16 [.plain 0, .aggregate .sum 1]
        (.sort ⟨16, 3, "s", [1], true⟩ (source "r" 16)))
    join ∈ (joined 16 3).nodes ∧
      ∀ event ∈ join.cursor.events ⟨true⟩ join.cursor.start
        [.next, .openUp, .next, .next, .close, .next], event.IsProper join.schema := by
  intro join
  have hnode : join ∈ (joined 16 3).nodes := List.mem_cons_of_mem _ List.mem_cons_self
  refine ⟨hnode, ?_⟩
  apply answers_properly (joined 16 3) (by decide) (by decide) (by decide) (by decide) ⟨true⟩ join
    hnode
  decide +kernel

/-- A sort on no key of rows of one column, with room on a page for more of them than a run can
count. -/
def sortedOnce (schema : Schema) (table : List Row) : Plan :=
  .sort MergeSort.onLongPages (.rows 0x800000000 schema table)

def textSchema : Schema := [.plain "t" "a" (.string 4)]

def text (n : Nat) : String := String.ofList (List.replicate n 'a')

theorem length_utf8Bytes_text (n : Nat) : (utf8Bytes (text n)).length = n := by
  have hsize : (utf8Bytes (text n)).length = (text n).utf8ByteSize := rfl
  rw [hsize, text, String.utf8ByteSize_ofList]
  induction n with
  | zero => rfl
  | succ n ih =>
    rw [List.replicate_succ, String.utf8Len_cons, ih rfl]
    rfl

theorem encode_text (path : String) (capacity : Nat) {n : Nat} (hn : 0x100000000 ≤ n) :
    RunFile.encode path [⟨capacity, [[.string (text n)]]⟩] = .error .stringTooLong := by
  have hlong : 0x100000000 ≤ (utf8Bytes (text n)).length := by rwa [length_utf8Bytes_text]
  rw [RunFile.encode, List.mapM_cons, RunFile.encodeBatch_of_long_text path capacity hlong]
  rfl

/-- Such a sort does not open if its rows cannot be written. -/
theorem exists_fails_sortedOnce (schema : Schema) {table : List Row} (fault : String → Error)
    (hschema : schema.rowSize = 4) (hne : table ≠ []) (hroom : table.length < 0x200000000)
    (hencode : ∀ path, RunFile.encode path [⟨0x200000000, Row.sortBy [] false table⟩] =
      .error (fault path)) :
    ∃ path, (sortedOnce schema table).cursor.openUp.Fails ⟨true⟩
      (sortedOnce schema table).cursor.start (.error (fault path)) := by
  have hcapacity : 0x800000000 / schema.rowSize = 0x200000000 := by rw [hschema]
  have hpages : Batch.pages 0x200000000 table = [⟨0x200000000, table⟩] := by
    rw [Batch.pages, chunks_of_length_le (by decide) hne (Nat.le_of_lt hroom)]
    rfl
  have hordered : Row.AreOrderedOn [] table := by
    constructor
    · intro row _ i hi
      cases hi
    · intro i hi
      cases hi
  have hopen : (RowSource.cursor 0x800000000 schema table).openUp.Gives ⟨true⟩ none ()
      (some [⟨0x200000000, table⟩]) := by
    have hsized : schema.pageCapacity 0x800000000 = .ok 0x200000000 := by
      rw [Schema.pageCapacity_of_le (hcapacity ▸ by decide), hcapacity]
    apply Act.gives_get_bind.mpr
    rw [← hpages]
    exact (Act.gives_ofAnswer hsized).bind Act.gives_set
  exact MergeSort.exists_fails_openUp_of_encode MergeSort.onLongPages
    (RowSource.cursor 0x800000000 schema table) ⟨true⟩ fault hordered (by decide) (by decide)
    (hcapacity ▸ by decide) hne (hcapacity.symm ▸ hroom) (hcapacity.symm ▸ hencode)
    (List.forall_mem_nil _) (by decide) (by decide) rfl rfl hopen ⟨rfl, rfl⟩ ⟨rfl, rfl⟩

/-- A row with a string of 2^32 bytes. -/
def wordy : Plan := sortedOnce textSchema [[.string (text 0x100000000)]]

/-- A page of 2^32 rows. -/
def crowded : Plan := sortedOnce (Sample.intSchema "t" 1) (List.replicate 0x100000000 [.int 0])

/-- No rows, with columns of which the widths do not add up to a word. -/
def wide : Plan := .rows 4096 [.plain "t" "a" (.string maxWord), .plain "t" "b" .int] []

/-- Beyond the limits of memory, of words and of run files there are other answers: there can be no
memory for a page and no number for the width of a row, no place for working files, and rows or pages
that a run has no numbers for. -/
theorem answers_beyond_limits :
    (oversized.validate = .ok () ∧ oversized.HasTypedRows ∧
      oversized.cursor.events ⟨true⟩ oversized.cursor.start [.openUp, .next] =
        [.opened (.ok ()), .paged (.error .outOfMemory)]) ∧
    (wide.validate = .ok () ∧ wide.HasTypedRows ∧
      wide.cursor.openUp.Fails ⟨true⟩ wide.cursor.start .outOfRange) ∧
    ((joined 16 3).validate = .ok () ∧ (joined 16 3).HasTypedRows ∧
      (joined 16 3).cursor.openUp.Fails ⟨false⟩ (joined 16 3).cursor.start (.error .io)) ∧
    (wordy.validate = .ok () ∧ wordy.HasTypedRows ∧
      wordy.cursor.openUp.Fails ⟨true⟩ wordy.cursor.start (.error .stringTooLong)) ∧
    crowded.validate = .ok () ∧ crowded.HasTypedRows ∧
      ∃ path, crowded.cursor.openUp.Fails ⟨true⟩ crowded.cursor.start
        (.error (.runFile path .batchTooLarge)) := by
  have hio : ((joined 16 3).cursor.openUp.run ⟨false⟩ (joined 16 3).cursor.start).answer =
      .error (.error .io) := by decide +kernel
  refine ⟨⟨by decide, by decide, rfl⟩, ⟨rfl, by decide, rfl⟩, ⟨by decide, by decide, hio⟩,
    ⟨rfl, ?_, ?_⟩, rfl, ?_, ?_⟩
  · exact List.forall_mem_singleton.mpr (.cons rfl .nil)
  · have hsorted : Row.sortBy [] false [[.string (text 0x100000000)]] =
        [[.string (text 0x100000000)]] := List.mergeSort_singleton _
    obtain ⟨path, hfails⟩ := exists_fails_sortedOnce textSchema (fun _ => .stringTooLong)
      rfl (List.cons_ne_nil [.string (text 0x100000000)] []) (Nat.lt_trans Nat.one_lt_two (by decide))
      fun path => by
        rw [hsorted]
        exact encode_text path _ (Nat.le_refl _)
    exact hfails
  · intro row hrow
    rw [List.eq_of_mem_replicate hrow]
    exact .cons rfl .nil
  · have hlength : (List.replicate 0x100000000 [Field.int 0]).length = 0x100000000 :=
      List.length_replicate
    refine exists_fails_sortedOnce _ (.runFile · .batchTooLarge) rfl ?_ ?_ fun path => ?_
    · exact List.length_pos_iff.mp (by rw [hlength]; decide)
    · rw [hlength]
      decide
    · apply RunFile.encode_long_page
      change 0x100000000 ≤ (Row.sortBy [] false (List.replicate 0x100000000 [Field.int 0])).length
      rw [(Row.sortBy_perm _ _ _).length_eq, hlength]

end Plan
end PagedQuery
