import PagedQuery.Json.DataForm
import PagedQuery.Operator.MergeSort.Runs
import PagedQuery.Operator.Aggregate.Tally
import PagedQuery.Operator.Join

/-!
# JSON forms of operator descriptions

How aggregate columns, join conditions and sort counters are written and read.
-/

namespace PagedQuery

def AggregateColumn.form : Form AggregateColumn where
  write
    | .plain position => Form.tagged "Plain" (Form.count.write position)
    | .aggregate op position =>
      Form.tagged "Agg" (.array [AggregateOp.form.write op, Form.count.write position])
  read? j :=
    match Form.variant? j with
    | some ("Plain", some position) => (Form.count.read? position).map .plain
    | some ("Agg", some (.array [op, position])) => do
      pure (.aggregate (← AggregateOp.form.read? op) (← Form.count.read? position))
    | _ => none

def JoinCondition.form : Form JoinCondition where
  write condition := Form.record [("left", Form.string.write condition.left),
    ("right", Form.string.write condition.right)]
  read? j :=
    match Form.fields? ["left", "right"] j with
    | some [some left, some right] => do
      pure ⟨← Form.string.read? left, ← Form.string.read? right⟩
    | _ => none

def SortStats.form : Form SortStats where
  write stats := Form.record [("initial_runs", Form.count.write stats.initialRuns),
    ("merge_passes", Form.count.write stats.mergePasses),
    ("max_fan_in", Form.count.write stats.maxFanIn),
    ("max_block_pages", Form.count.write stats.maxBlockPages),
    ("merged_runs", Form.count.write stats.mergedRuns)]
  read? j :=
    match Form.fields?
      ["initial_runs", "merge_passes", "max_fan_in", "max_block_pages", "merged_runs"] j with
    | some [some initialRuns, some mergePasses, some maxFanIn, some maxBlockPages,
        some mergedRuns] => do
      pure ⟨← Form.count.read? initialRuns, ← Form.count.read? mergePasses,
        ← Form.count.read? maxFanIn, ← Form.count.read? maxBlockPages,
        ← Form.count.read? mergedRuns⟩
    | _ => none

end PagedQuery
