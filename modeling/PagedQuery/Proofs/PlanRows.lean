import PagedQuery.Plan
import PagedQuery.Proofs.OpeningFaults
import PagedQuery.Proofs.SortMergeJoin

namespace PagedQuery
namespace Plan

/-- Whether the sources of a plan are rows that conform to their schemas. -/
def HasTypedRows : Plan → Prop
  | .rows _ schema table => ∀ row ∈ table, row.Conforms schema
  | .script _ _ _ => False
  | .project _ _ child | .sort _ child | .distinct _ _ child | .aggregate _ _ child =>
    child.HasTypedRows
  | .join _ _ _ left right => left.HasTypedRows ∧ right.HasTypedRows

instance decidableHasTypedRows : (plan : Plan) → Decidable plan.HasTypedRows
  | .rows _ schema table => inferInstanceAs (Decidable (∀ row ∈ table, row.Conforms schema))
  | .script _ _ _ => inferInstanceAs (Decidable False)
  | .project _ _ child | .sort _ child | .distinct _ _ child | .aggregate _ _ child =>
    decidableHasTypedRows child
  | .join _ _ _ left right =>
    have := decidableHasTypedRows left
    have := decidableHasTypedRows right
    inferInstanceAs (Decidable (_ ∧ _))

/-- The rows of a plan, whatever pages they come on, or why there are none. -/
def result : Plan → Except Error (List Row)
  | .rows _ _ table => pure table
  | .script _ _ _ => pure []
  | .project _ fields child => Project.result fields child.result
  | .sort spec child => MergeSort.result spec.key spec.descending child.schema child.result
  | .distinct _ _ child =>
    Distinct.result
      (MergeSort.result (List.range child.schema.length) false child.schema child.result)
  | .aggregate _ columns child => Aggregate.result columns child.schema child.result
  | .join _ _ conditions left right =>
    let keys := joinKeys conditions left.schema right.schema
    Join.result keys (MergeSort.result keys.left false left.schema left.result)
      (MergeSort.result keys.right false right.schema right.result)

/-- A plan without its sizes. -/
def erase : Plan → Plan
  | .rows _ schema table => .rows 0 schema table
  | .script name schema answers => .script name schema answers
  | .project _ fields child => .project 0 fields child.erase
  | .sort spec child => .sort { spec with pageSize := 0, numBuffers := 0 } child.erase
  | .distinct _ _ child => .distinct 0 0 child.erase
  | .aggregate _ columns child => .aggregate 0 columns child.erase
  | .join _ _ conditions left right => .join 0 0 conditions left.erase right.erase

theorem schema_erase (plan : Plan) : plan.erase.schema = plan.schema := by
  induction plan with
  | rows => rfl
  | script => rfl
  | project _ fields child ih => exact congrArg (Project.outputSchema fields) ih
  | sort spec child ih => exact ih
  | distinct _ _ child ih => exact ih
  | aggregate _ columns child ih => exact congrArg (Aggregate.outputSchema columns) ih
  | join _ _ conditions left right ihLeft ihRight => exact congrArg₂ (· ++ ·) ihLeft ihRight

theorem validate_erase (plan : Plan) : plan.erase.validate = plan.validate := by
  induction plan with
  | rows => rfl
  | script => rfl
  | project _ fields child ih => simp only [erase, validate, ih, schema_erase]
  | sort spec child ih => exact ih
  | distinct _ _ child ih => exact ih
  | aggregate _ columns child ih => simp only [erase, validate, ih, schema_erase]
  | join _ _ conditions left right ihLeft ihRight =>
    simp only [erase, validate, ihLeft, ihRight, schema_erase]

theorem hasTypedRows_erase (plan : Plan) : plan.erase.HasTypedRows ↔ plan.HasTypedRows := by
  induction plan with
  | rows => exact Iff.rfl
  | script => exact Iff.rfl
  | project _ fields child ih => exact ih
  | sort spec child ih => exact ih
  | distinct _ _ child ih => exact ih
  | aggregate _ columns child ih => exact ih
  | join _ _ conditions left right ihLeft ihRight => exact and_congr ihLeft ihRight

/-- The sizes at the nodes of a plan do not matter for its rows. -/
theorem result_erase (plan : Plan) : plan.erase.result = plan.result := by
  induction plan with
  | rows => rfl
  | script => rfl
  | project _ fields child ih => simp only [erase, result, ih]
  | sort spec child ih => simp only [erase, result, ih, schema_erase]
  | distinct _ _ child ih => simp only [erase, result, ih, schema_erase]
  | aggregate _ columns child ih => simp only [erase, result, ih, schema_erase]
  | join _ _ conditions left right ihLeft ihRight =>
    simp only [erase, result, ihLeft, ihRight, schema_erase]

theorem result_congr {plan plan' : Plan} (h : plan.erase = plan'.erase) :
    plan.result = plan'.result := by
  rw [← plan.result_erase, h, plan'.result_erase]

theorem select?_eq_outputSchema {fields : List Nat} {schema : Schema}
    (h : ∀ i ∈ fields, i < schema.length) :
    schema.select? fields = some (Project.outputSchema fields schema) := by
  have hsome : ∃ output, schema.select? fields = some output := by
    induction fields with
    | nil => exact ⟨[], rfl⟩
    | cons i fields ih =>
      rw [List.forall_mem_cons] at h
      obtain ⟨output, houtput⟩ := ih h.2
      unfold Schema.select? at houtput ⊢
      rw [List.mapM_cons, List.getElem?_eq_getElem h.1, houtput]
      exact ⟨_, rfl⟩
  obtain ⟨output, houtput⟩ := hsome
  rw [Project.outputSchema, houtput, Option.getD_some]

/-- The rows of a sort are those below it. -/
theorem exists_perm_of_sortResult {key : List Nat} {descending : Bool} {schema : Schema}
    {below : Except Error (List Row)} {table : List Row}
    (h : MergeSort.result key descending schema below = .ok table) :
    ∃ given, below = .ok given ∧ table.Perm given := by
  obtain ⟨_, -, h⟩ := exists_of_bind_eq_ok h
  obtain ⟨given, hgiven, h⟩ := exists_of_bind_eq_ok h
  obtain rfl := Except.ok.inj h
  exact ⟨given, hgiven, Row.sortBy_perm _ _ _⟩

theorem conforms_result {plan : Plan} (hvalid : plan.validate = .ok ()) (htyped : plan.HasTypedRows)
    {table : List Row} (h : plan.result = .ok table) : ∀ row ∈ table, row.Conforms plan.schema := by
  induction plan generalizing table with
  | rows pageSize schema given =>
    obtain rfl := Except.ok.inj h
    exact htyped
  | script => cases htyped
  | project pageSize fields child ih =>
    obtain ⟨_, hchild, hfields⟩ := exists_of_bind_eq_ok hvalid
    obtain ⟨below, hbelow, h⟩ := exists_of_bind_eq_ok h
    obtain rfl := Except.ok.inj h
    intro row hrow
    obtain ⟨source, hsource, rfl⟩ := List.mem_map.mp hrow
    have houtput := select?_eq_outputSchema (Project.lt_of_validate hfields)
    exact (ih hchild htyped hbelow source hsource).keyOf houtput
  | sort spec child ih =>
    obtain ⟨below, hbelow, hperm⟩ := exists_perm_of_sortResult h
    intro row hrow
    exact ih hvalid htyped hbelow row (hperm.mem_iff.mp hrow)
  | distinct pageSize numBuffers child ih =>
    obtain ⟨sorted, hsorted, h⟩ := exists_of_bind_eq_ok h
    obtain rfl := Except.ok.inj h
    obtain ⟨below, hbelow, hperm⟩ := exists_perm_of_sortResult hsorted
    intro row hrow
    exact ih hvalid htyped hbelow row (hperm.mem_iff.mp (Distinct.mem_of_mem_keepChanges hrow))
  | aggregate pageSize columns child ih =>
    obtain ⟨_, hchild, hcolumns⟩ := exists_of_bind_eq_ok hvalid
    obtain ⟨_, htypes, h⟩ := exists_of_bind_eq_ok h
    obtain ⟨below, hbelow, h⟩ := exists_of_bind_eq_ok h
    obtain ⟨ts, hts, h⟩ := exists_of_bind_eq_ok h
    obtain rfl := Except.ok.inj h
    have hconform := ih hchild htyped hbelow
    have hof := Aggregate.isColumnOf_of_checkTypes (Aggregate.lt_of_validate hcolumns) htypes
    exact Aggregate.conforms_outputRows hof (Aggregate.areTallies_of_tally hof hconform hts) hconform
  | join pageSize numBuffers conditions left right ihLeft ihRight =>
    obtain ⟨_, hleft, hvalid⟩ := exists_of_bind_eq_ok hvalid
    obtain ⟨_, hright, -⟩ := exists_of_bind_eq_ok hvalid
    obtain ⟨leftRows, hleftRows, h⟩ := exists_of_bind_eq_ok h
    obtain ⟨rightRows, hrightRows, h⟩ := exists_of_bind_eq_ok h
    obtain rfl := Except.ok.inj h
    obtain ⟨belowLeft, hbelowLeft, hpermLeft⟩ := exists_perm_of_sortResult hleftRows
    obtain ⟨belowRight, hbelowRight, hpermRight⟩ := exists_perm_of_sortResult hrightRows
    intro row hrow
    obtain ⟨l, hl, r, hr, rfl⟩ := Join.exists_of_mem_mergeRows hrow
    exact (ihLeft hleft htyped.1 hbelowLeft l (hpermLeft.mem_iff.mp hl)).append
      (ihRight hright htyped.2 hbelowRight r (hpermRight.mem_iff.mp hr))

end Plan
end PagedQuery
