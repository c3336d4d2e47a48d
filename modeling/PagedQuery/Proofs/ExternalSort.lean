import PagedQuery.Proofs.LongPages
import PagedQuery.Sample

namespace PagedQuery
namespace MergeSort

variable {σ : Type}

/-- A sort gives the stable sort of the rows that its child delivers, whatever pages they come on and
however many runs and passes it takes. -/
theorem reads_stable_sort (spec : SortSpec) (child : Cursor σ) (root : TempRoot) (c d : σ)
    (batches : List Batch) (hbuffers : 3 ≤ spec.numBuffers)
    (hpage : 1 ≤ spec.pageSize / child.schema.rowSize)
    (hkey : ∀ position ∈ spec.key, position < child.schema.length)
    (hopen : child.openUp.Gives root child.start () c) (hdelivers : child.Delivers root c batches d)
    (hordered : Row.AreOrderedOn spec.key (batches.flatMap (·.rows)))
    (hstorable : ∀ row ∈ batches.flatMap (·.rows), row.IsStorable)
    (hmemory : spec.FitsMemory (spec.pageSize / child.schema.rowSize)
      (batches.flatMap (·.rows)).length)
    (hfolder : (root.makeFolder? (spec.label ++ "-sort-")).isSome = true)
    (hnames : spec.HasFileNames (batches.flatMap (·.rows)).length) :
    ∃ s t sorted, (cursor spec child).openUp.Gives root (cursor spec child).start () s ∧
      (cursor spec child).drain.Gives root s
        (Batch.pages (spec.pageSize / child.schema.rowSize) sorted, none) t ∧
      Row.sortOn? spec.key spec.descending (batches.flatMap (·.rows)) = some sorted ∧
      sorted = (batches.flatMap (·.rows)).mergeSort (Row.precedesOn spec.key spec.descending) := by
  obtain ⟨o⟩ := KeyOrder.nonempty_of_areOrderedOn hordered spec.descending
  have hcan : CanSort spec (spec.pageSize / child.schema.rowSize) (batches.flatMap (·.rows)) :=
    ⟨hbuffers, hpage, hmemory, hnames, hstorable⟩
  obtain ⟨s, hopened, -, hsupplies⟩ := exists_gives_openUp (s := (cursor spec child).start)
    hpage hcan o hkey hfolder rfl rfl hopen hdelivers rfl
  obtain ⟨t, u, hyields, hend⟩ := hsupplies.exists_yields
  have hsorted := o.sortOn?_eq (List.Subset.refl _)
  refine ⟨s, u, _, hopened, hyields.drain hend, hsorted, ?_⟩
  exact mergeSort_congr fun a ha b hb => (o.precedesOn_eq ha hb).symm

/-- Pages of several sizes, with integers and doubles in the first column. -/
def mixedPages : List Batch :=
  [⟨4, [[.float ⟨0x4000000000000000⟩, .int 1], [.int 1, .int 2], [.int 2, .int 3]]⟩,
    ⟨4, [[.null, .int 4]]⟩,
    ⟨4, [[.int 1, .int 5], [.float ⟨0x4000000000000000⟩, .int 6], [.int 0, .int 7]]⟩]

def mixedChild : Cursor Script :=
  Script.cursor "c" (Sample.intSchema "t" 2)
    ⟨[], mixedPages.map (fun page => .ok (some page)) ++ [.ok (some ⟨4, []⟩)], []⟩

theorem delivers_mixedPages :
    mixedChild.Delivers ⟨true⟩ mixedChild.start mixedPages ⟨[], [], []⟩ :=
  ⟨_, some ⟨4, []⟩, .cons ⟨rfl, rfl⟩ (by decide) (.cons ⟨rfl, rfl⟩ (by decide)
    (.cons ⟨rfl, rfl⟩ (by decide) (.nil _))), ⟨rfl, rfl⟩, rfl⟩

/-- A sort by the first column on pages of one row. -/
def byFirst (numBuffers : Nat) : SortSpec := ⟨8, numBuffers, "s", [0], false⟩

/-- Three runs and two passes: the rows with equal keys, among them an integer and a double, keep
their order. -/
theorem reads_stable_sort_mixedPages :
    ∃ s t, (cursor (byFirst 3) mixedChild).openUp.Gives ⟨true⟩ (cursor (byFirst 3) mixedChild).start
        () s ∧
      (cursor (byFirst 3) mixedChild).drain.Gives ⟨true⟩ s
        (Batch.pages 1
          [[.null, .int 4], [.int 0, .int 7], [.int 1, .int 2], [.int 1, .int 5],
            [.float ⟨0x4000000000000000⟩, .int 1], [.int 2, .int 3],
            [.float ⟨0x4000000000000000⟩, .int 6]], none) t := by
  obtain ⟨s, t, sorted, hopen, hdrain, hsorted, -⟩ := reads_stable_sort (byFirst 3) mixedChild
    ⟨true⟩ mixedChild.start _ mixedPages (by decide) (by decide) (by decide) ⟨rfl, rfl⟩
    delivers_mixedPages (by decide) (by decide) ⟨by decide, by decide, by decide⟩ (by decide)
    ⟨by decide, by decide⟩
  have heq : Row.sortOn? [0] false (mixedPages.flatMap (·.rows)) =
      some [[.null, .int 4], [.int 0, .int 7], [.int 1, .int 2], [.int 1, .int 5],
        [.float ⟨0x4000000000000000⟩, .int 1], [.int 2, .int 3],
        [.float ⟨0x4000000000000000⟩, .int 6]] := by
    decide +kernel
  obtain rfl := Option.some.inj (hsorted.symm.trans heq)
  exact ⟨s, t, hopen, hdrain⟩

/-- More rows than a run can count, on a single page. -/
def longPage : Batch := ⟨0x200000000, List.replicate 0x100000000 [.int 0]⟩

def longChild : Cursor Script :=
  Script.cursor "c" (Sample.intSchema "t" 1) ⟨[], [.ok (some longPage)], []⟩

/-- A sort with the fewest buffers and room for the long page. -/
def onLongPages : SortSpec := ⟨0x800000000, 3, "s", [], false⟩

theorem mem_longPage {row : Row} (h : row ∈ [longPage].flatMap (·.rows)) : row = [.int 0] := by
  rw [List.flatMap_cons, List.flatMap_nil, List.append_nil] at h
  exact List.eq_of_mem_replicate h

theorem length_longPage : longPage.rows.length = 0x100000000 := List.length_replicate

/-- Without memory for its buffers a sort fails, and so it does if it has to write a page of 2^32
rows, whatever else is as it should be. -/
theorem openUp_fails_beyond_limits :
    (3 ≤ (byFirst 0x1000000000000000).numBuffers ∧
      1 ≤ (byFirst 0x1000000000000000).pageSize / mixedChild.schema.rowSize ∧
      mixedChild.openUp.Gives ⟨true⟩ mixedChild.start () mixedChild.start ∧
      mixedChild.Delivers ⟨true⟩ mixedChild.start mixedPages ⟨[], [], []⟩ ∧
      Row.AreOrderedOn [0] (mixedPages.flatMap (·.rows)) ∧
      (∀ row ∈ mixedPages.flatMap (·.rows), row.IsStorable) ∧
      (openUp (byFirst 0x1000000000000000) mixedChild).Fails ⟨true⟩
        (cursor (byFirst 0x1000000000000000) mixedChild).start .outOfMemory) ∧
    (3 ≤ onLongPages.numBuffers ∧ 1 ≤ onLongPages.pageSize / longChild.schema.rowSize ∧
      longChild.openUp.Gives ⟨true⟩ longChild.start () longChild.start ∧
      longChild.Delivers ⟨true⟩ longChild.start [longPage] ⟨[], [], []⟩ ∧
      Row.AreOrderedOn [] ([longPage].flatMap (·.rows)) ∧
      (∀ row ∈ [longPage].flatMap (·.rows), row.IsStorable) ∧
      ∃ path, (openUp onLongPages longChild).Fails ⟨true⟩
        (cursor onLongPages longChild).start (.error (.runFile path .batchTooLarge))) := by
  have hne : longPage.rows ≠ [] := List.length_pos_iff.mp (by rw [length_longPage]; decide)
  have hordered : Row.AreOrderedOn [] longPage.rows := by
    constructor
    · intro row _ i hi
      cases hi
    · intro i hi
      cases hi
  obtain ⟨path, hfails⟩ := exists_fails_openUp onLongPages longChild ⟨true⟩
    (s := (cursor onLongPages longChild).start) hordered (by decide) (by decide) (by decide)
    (by rw [length_longPage]) (by rw [length_longPage]; decide) (by decide) (by decide) (by decide)
    rfl rfl ⟨rfl, rfl⟩ ⟨rfl, rfl⟩ ⟨rfl, rfl⟩
  refine ⟨⟨by decide, by decide, ⟨rfl, rfl⟩, delivers_mixedPages, by decide, by decide, rfl⟩,
    by decide, by decide, ⟨rfl, rfl⟩, ?_, ?_, ?_, path, hfails⟩
  · exact ⟨_, none, .cons ⟨rfl, rfl⟩ hne (.nil _), ⟨rfl, rfl⟩, rfl⟩
  · rwa [List.flatMap_cons, List.flatMap_nil, List.append_nil]
  · intro row hrow
    rw [mem_longPage hrow]
    decide

end MergeSort
end PagedQuery
