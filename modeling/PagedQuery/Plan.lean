import PagedQuery.Operator.RowSource
import PagedQuery.Sample
import PagedQuery.Operator.Project
import PagedQuery.Operator.Distinct
import PagedQuery.Operator.Aggregate
import PagedQuery.Operator.Join

/-!
# Plans

A `Plan` is a tree of operators over sources of rows. Each node carries its own page size and, where
it sorts, its own buffer budget. `Plan.validate` checks what is checked when operators are put
together; `Plan.cursor` is the operator that the tree stands for, with states `Plan.State`.
-/

namespace PagedQuery

/-- A tree of operators. -/
inductive Plan where
  | rows (pageSize : Nat) (schema : Schema) (rows : List Row)
  | script (name : String) (schema : Schema) (script : Script)
  | project (pageSize : Nat) (fields : List Nat) (child : Plan)
  | sort (spec : SortSpec) (child : Plan)
  | distinct (pageSize numBuffers : Nat) (child : Plan)
  | aggregate (pageSize : Nat) (columns : List AggregateColumn) (child : Plan)
  | join (pageSize numBuffers : Nat) (conditions : List JoinCondition) (left right : Plan)

namespace Plan

def schema : Plan → Schema
  | .rows _ schema _ | .script _ schema _ => schema
  | .project _ fields child => Project.outputSchema fields child.schema
  | .sort _ child | .distinct _ _ child => child.schema
  | .aggregate _ columns child => Aggregate.outputSchema columns child.schema
  | .join _ _ _ left right => left.schema ++ right.schema

/-- The keys of a join's two inputs. There are none if the conditions cannot be resolved. -/
def joinKeys (conditions : List JoinCondition) (left right : Schema) : Join.Keys :=
  match Join.keys conditions left right with
  | .ok (l, r) => ⟨l, r⟩
  | .error _ => ⟨[], []⟩

/-- Checks the nodes, children before their parent and left before right. -/
def validate : Plan → Except Error Unit
  | .rows _ _ _ | .script _ _ _ => .ok ()
  | .project _ fields child => do
    child.validate
    Project.validate fields child.schema
  | .sort _ child | .distinct _ _ child => child.validate
  | .aggregate _ columns child => do
    child.validate
    Aggregate.validate columns child.schema
  | .join _ _ conditions left right => do
    left.validate
    right.validate
    let _ ← Join.keys conditions left.schema right.schema

def State : Plan → Type
  | .rows _ _ _ => RowSource.State
  | .script _ _ _ => Script
  | .project _ _ child => Project.State child.State
  | .sort _ child => MergeSort.State child.State
  | .distinct _ _ child => Distinct.State (MergeSort.State child.State)
  | .aggregate _ _ child => Aggregate.State child.State
  | .join _ _ _ left right => Join.State (MergeSort.State left.State) (MergeSort.State right.State)

/-- The operator that a plan stands for. -/
def cursor : (plan : Plan) → Cursor plan.State
  | .rows pageSize schema table => RowSource.cursor pageSize schema table
  | .script name schema answers => Script.cursor name schema answers
  | .project pageSize fields child => Project.cursor pageSize fields child.cursor
  | .sort spec child => MergeSort.cursor spec child.cursor
  | .distinct pageSize numBuffers child => Distinct.cursor pageSize numBuffers child.cursor
  | .aggregate pageSize columns child => Aggregate.cursor pageSize columns child.cursor
  | .join pageSize numBuffers conditions left right =>
    Join.cursor pageSize numBuffers (joinKeys conditions left.schema right.schema)
      left.cursor right.cursor

/-- Whether the output holds no duplicate rows by design. -/
def isDistinct : Plan → Bool
  | .distinct _ _ _ => true
  | _ => false

def orderBy : Plan → List Attribute
  | .sort spec child => MergeSort.orderBy spec.key child.schema
  | .distinct _ _ child => child.schema
  | _ => []

def isDescending : Plan → Bool
  | .sort spec _ => spec.descending
  | _ => false

def sortStats? : (plan : Plan) → plan.State → Option SortStats
  | .sort _ _, s => some (MergeSort.State.work s).stats
  | _, _ => none

def isPureAggregate? : Plan → Option Bool
  | .aggregate _ columns _ => some (Aggregate.isPure columns)
  | _ => none

end Plan

end PagedQuery
