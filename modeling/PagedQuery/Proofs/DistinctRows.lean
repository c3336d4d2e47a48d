import Mathlib.Data.List.Pairwise
import PagedQuery.Proofs.ExternalSort
import PagedQuery.Proofs.OperatorFeeds

namespace PagedQuery

/-- A stable sort keeps the order of items that are equal in it. -/
theorem Orders.filter_mergeSort {α : Type} {le : α → α → Bool} (h : Orders le) {xs : List α}
    {p : α → Bool} (hp : ∀ a ∈ xs, ∀ b ∈ xs, p a = true → p b = true → le a b = true) :
    (xs.mergeSort le).filter p = xs.filter p := by
  have htied : (xs.filter p).Pairwise (le · · = true) := by
    refine List.pairwise_of_forall_mem_list fun a ha b hb => ?_
    rw [List.mem_filter] at ha hb
    exact hp a ha.1 b hb.1 ha.2 hb.2
  have hsublist := (List.sublist_mergeSort h.trans h.total htied List.filter_sublist).filter p
  rw [List.filter_filter] at hsublist
  simp only [Bool.and_self] at hsublist
  exact (hsublist.eq_of_length ((List.mergeSort_perm xs le).filter p).length_eq.symm).symm

theorem countP_le_one {α : Type} {p : α → Bool} {xs : List α}
    (h : xs.Pairwise fun a b => ¬(p a = true ∧ p b = true)) : xs.countP p ≤ 1 := by
  induction xs with
  | nil => exact Nat.zero_le 1
  | cons a xs ih =>
    obtain ⟨ha, hxs⟩ := List.pairwise_cons.mp h
    by_cases hpa : p a = true
    · have hnone : xs.countP p = 0 := List.countP_eq_zero.mpr fun b hb hpb => ha b hb ⟨hpa, hpb⟩
      rw [List.countP_cons_of_pos hpa, hnone]
    · rw [List.countP_cons_of_neg hpa]
      exact ih hxs

namespace Row

theorem equals_eq_compare (a b : Row) : a.equals b = (Row.compare a b == .eq) := by
  induction a generalizing b with
  | nil => cases b <;> rfl
  | cons x a ih =>
    cases b with
    | nil => rfl
    | cons y b =>
      rw [equals, Row.compare, ih, Field.equals]
      cases x.compare y <;> rfl

theorem keyOf_range {row : Row} {width : Nat} (h : row.length = width) :
    keyOf (List.range width) row = row := by
  refine List.ext_getElem (by simp [length_keyOf, h]) fun i _ hi => ?_
  simp [keyOf, hi]

end Row

namespace Distinct

variable {width : Nat} {all rows : List Row} {last : Option Row}

section Sorted

variable (o : KeyOrder (List.range width) false all) (hwidth : ∀ row ∈ all, row.length = width)

include hwidth in
theorem compare_eq {a b : Row} (ha : a ∈ all) (hb : b ∈ all) : o.compare a b = Row.compare a b := by
  have hagrees := o.agrees a ha b hb
  rw [Row.keyOf_range (hwidth a ha), Row.keyOf_range (hwidth b hb)] at hagrees
  exact hagrees.symm

include hwidth in
theorem equals_iff {a b : Row} (ha : a ∈ all) (hb : b ∈ all) :
    a.equals b = true ↔ o.compare a b = .eq := by
  rw [Row.equals_eq_compare, ← compare_eq o hwidth ha hb]
  exact beq_iff_eq

include hwidth in
/-- The rows that differ from the last one kept strictly ascend, and stand behind it. -/
theorem pairwise_keepChanges (hrows : rows ⊆ all) (hsorted : rows.Pairwise (o.le · · = true))
    (hlast : ∀ kept, last = some kept → kept ∈ all ∧ ∀ row ∈ rows, o.le kept row = true) :
    (keepChanges last rows).Pairwise (o.compare · · = .lt) ∧
      ∀ kept, last = some kept → ∀ row ∈ keepChanges last rows, o.compare kept row = .lt := by
  have htrans := o.transCmp
  induction rows generalizing last with
  | nil => exact ⟨.nil, fun _ _ _ hrow => by cases hrow⟩
  | cons first rows ih =>
    obtain ⟨hfirst, hrest⟩ := List.cons_subset.mp hrows
    obtain ⟨hbefore, hsorted⟩ := List.pairwise_cons.mp hsorted
    rw [keepChanges]
    split
    · exact ih hrest hsorted fun kept hkept =>
        ⟨(hlast kept hkept).1, (List.forall_mem_cons.mp (hlast kept hkept).2).2⟩
    · next hrepeats =>
      have hkeptFirst : ∀ kept, some first = some kept →
          kept ∈ all ∧ ∀ row ∈ rows, o.le kept row = true := by
        rintro _ ⟨⟩
        exact ⟨hfirst, hbefore⟩
      obtain ⟨hstrict, habove⟩ := ih hrest hsorted hkeptFirst
      refine ⟨List.pairwise_cons.mpr ⟨habove first rfl, hstrict⟩, ?_⟩
      rintro kept rfl
      obtain ⟨hkept, hle⟩ := hlast kept rfl
      have hne : o.compare kept first ≠ .eq := fun heq =>
        hrepeats ((equals_iff o hwidth hkept hfirst).mpr heq)
      have hlt : o.compare kept first = .lt := by
        have hle := hle first List.mem_cons_self
        unfold KeyOrder.le at hle
        cases horder : o.compare kept first with
        | lt => rfl
        | eq => exact absurd horder hne
        | gt =>
          rw [horder] at hle
          cases hle
      intro row hrow
      rcases List.mem_cons.mp hrow with rfl | hrow
      · exact hlt
      · exact Std.TransCmp.lt_trans hlt (habove first rfl row hrow)

include o hwidth in
/-- Every row equals the last one kept, or the first row of its class is kept. -/
theorem find?_keepChanges (hrows : rows ⊆ all) (hlast : ∀ kept, last = some kept → kept ∈ all)
    {row : Row} (hrow : row ∈ rows) :
    (∃ kept, last = some kept ∧ kept.equals row = true) ∨
      ∃ kept ∈ keepChanges last rows, rows.find? (Row.equals row) = some kept := by
  have htrans := o.transCmp
  have hmem := hrows hrow
  have hiff {a b : Row} (ha : a ∈ all) (hb : b ∈ all) := equals_iff o hwidth ha hb
  induction rows generalizing last with
  | nil => cases hrow
  | cons first rows ih =>
    obtain ⟨hfirst, hrest⟩ := List.cons_subset.mp hrows
    rw [keepChanges]
    by_cases hequals : row.equals first = true
    · rw [List.find?_cons_of_pos hequals]
      split
      · next hrepeats =>
        cases last with
        | none => cases hrepeats
        | some kept =>
          have hkept := hlast kept rfl
          have hsame := Std.TransCmp.eq_trans ((hiff hkept hfirst).mp hrepeats)
            (Std.OrientedCmp.eq_symm ((hiff hmem hfirst).mp hequals))
          exact .inl ⟨kept, rfl, (hiff hkept hmem).mpr hsame⟩
      · exact .inr ⟨first, List.mem_cons_self, rfl⟩
    · rw [List.find?_cons_of_neg hequals]
      have hlater : row ∈ rows := by
        refine (List.mem_cons.mp hrow).resolve_left ?_
        rintro rfl
        exact hequals ((hiff hmem hmem).mpr Std.ReflCmp.compare_self)
      split
      · exact ih hrest hlast hlater
      · have hkeptFirst : ∀ kept, some first = some kept → kept ∈ all := by
          rintro _ ⟨⟩
          exact hfirst
        rcases ih hrest hkeptFirst hlater with ⟨_, ⟨⟩, hsame⟩ | ⟨kept, hkept, hfind⟩
        · have hsame := Std.OrientedCmp.eq_symm ((hiff hfirst hmem).mp hsame)
          exact absurd ((hiff hmem hfirst).mpr hsame) hequals
        · exact .inr ⟨kept, List.mem_cons_of_mem first hkept, hfind⟩

include o hwidth in
/-- What is kept of the sorted rows: of every class the row that came first. -/
theorem keepChanges_sortBy :
    let kept := keepChanges none (Row.sortBy (List.range width) false all)
    kept.Pairwise (Row.compare · · = .lt) ∧ (∀ row ∈ all, kept.countP row.equals = 1) ∧
      ∀ row ∈ kept, all.find? row.equals = some row := by
  have htrans := o.transCmp
  have hsub : Row.sortBy (List.range width) false all ⊆ all := fun row hrow =>
    (Row.sortBy_perm _ _ all).mem_iff.mp hrow
  have hsorted : (Row.sortBy (List.range width) false all).Pairwise (o.le · · = true) := by
    rw [o.sortBy_eq (List.Subset.refl all)]
    exact List.pairwise_mergeSort o.orders.trans o.orders.total all
  have hstrict : (keepChanges none (Row.sortBy (List.range width) false all)).Pairwise
      (o.compare · · = .lt) :=
    (pairwise_keepChanges o hwidth hsub hsorted fun _ hkept => by cases hkept).1
  have hmem {row : Row} (hrow : row ∈ keepChanges none (Row.sortBy (List.range width) false all)) :
      row ∈ all := hsub (mem_of_mem_keepChanges hrow)
  have hiff {a b : Row} (ha : a ∈ all) (hb : b ∈ all) := equals_iff o hwidth ha hb
  -- The first of a class among the sorted rows is the first of it among the rows of the input.
  have hfirst : ∀ row ∈ all, ∃ kept ∈ keepChanges none (Row.sortBy (List.range width) false all),
      all.find? row.equals = some kept := by
    intro row hrow
    have hin := (Row.sortBy_perm (List.range width) false all).mem_iff.mpr hrow
    have hfound : (∃ kept, none = some kept ∧ _) ∨
        ∃ kept ∈ keepChanges none (Row.sortBy (List.range width) false all), _ :=
      find?_keepChanges o hwidth hsub (fun _ hkept => by cases hkept) hin
    rcases hfound with ⟨_, hnone, -⟩ | ⟨kept, hkept, hfind⟩
    · cases hnone
    · refine ⟨kept, hkept, ?_⟩
      rw [← hfind, o.sortBy_eq (List.Subset.refl all), ← List.head?_filter, ← List.head?_filter,
        o.orders.filter_mergeSort]
      intro a ha b hb hrowa hrowb
      have hab := Std.TransCmp.eq_trans (Std.OrientedCmp.eq_symm ((hiff hrow ha).mp hrowa))
        ((hiff hrow hb).mp hrowb)
      rw [KeyOrder.le, hab]
      rfl
  refine ⟨hstrict.imp_of_mem fun ha hb hab => ?_, fun row hrow => ?_, fun row hrow => ?_⟩
  · rw [← compare_eq o hwidth (hmem ha) (hmem hb), hab]
  · obtain ⟨kept, hkept, hfind⟩ := hfirst row hrow
    refine Nat.le_antisymm (countP_le_one ?_)
      (List.countP_pos_iff.mpr ⟨kept, hkept, List.find?_some hfind⟩)
    refine hstrict.imp_of_mem ?_
    rintro a b ha hb hab ⟨hrowa, hrowb⟩
    have heq := Std.TransCmp.eq_trans (Std.OrientedCmp.eq_symm ((hiff hrow (hmem ha)).mp hrowa))
      ((hiff hrow (hmem hb)).mp hrowb)
    rw [hab] at heq
    cases heq
  · obtain ⟨kept, hkept, hfind⟩ := hfirst row (hmem hrow)
    have heq := (hiff (hmem hrow) (hmem hkept)).mp (List.find?_some hfind)
    have hsymm : Std.Symm fun a b : Row => o.compare a b = .eq → a = b :=
      ⟨fun a b hab heq => (hab (Std.OrientedCmp.eq_symm heq)).symm⟩
    have hone : (keepChanges none (Row.sortBy (List.range width) false all)).Pairwise
        fun a b => o.compare a b = .eq → a = b :=
      hstrict.imp fun hlt heq => by
        rw [hlt] at heq
        cases heq
    rw [hfind, hone.forall_of_forall (fun _ _ _ => rfl) hrow hkept heq]

end Sorted

variable {σ : Type}

theorem exists_of_gives_openUp {sort : Cursor σ} {pageSize : Nat} {root : TempRoot} {s t : State σ}
    (hclosed : s.isOpen = false) (h : (openUp pageSize sort).Gives root s () t) :
    0 < pageSize / sort.schema.rowSize ∧ ∃ c, sort.openUp.Gives root s.sort () c ∧
      t = ⟨c, true, pageSize / sort.schema.rowSize, none, []⟩ := by
  replace h := Act.gives_get_bind.mp h
  rw [if_neg (by simp [hclosed])] at h
  obtain ⟨capacity, hcapacity, h⟩ := h.of_ofAnswer_bind
  obtain ⟨rfl, hc⟩ := Schema.of_pageCapacity hcapacity
  obtain ⟨_, sized, hsized, h⟩ := h.of_bind
  obtain ⟨-, rfl⟩ := hsized.unique (Act.gives_modify _)
  obtain ⟨_, opened, hopened, h⟩ := h.of_bind
  obtain ⟨c, hsort, rfl⟩ := hopened.of_within
  exact ⟨hc, c, hsort, (h.unique (Act.gives_modify _)).2⟩

theorem gives_openUp {sort : Cursor σ} {pageSize : Nat} {root : TempRoot} {s : State σ} {c : σ}
    (hclosed : s.isOpen = false) (hpage : 1 ≤ pageSize / sort.schema.rowSize)
    (hsort : sort.openUp.Gives root s.sort () c) :
    (openUp pageSize sort).Gives root s ()
      ⟨c, true, pageSize / sort.schema.rowSize, none, []⟩ := by
  apply Act.gives_get_bind.mpr
  rw [if_neg (by simp [hclosed])]
  let sized : State σ := { s with capacity := pageSize / sort.schema.rowSize }
  refine (Act.gives_ofAnswer (Schema.pageCapacity_of_le hpage)).bind ((Act.gives_modify _).bind ?_)
  exact (gives_onSort (s := sized) hsort).bind (Act.gives_modify _)

/-- Reading a duplicate elimination that has opened gives one row of every class of equal rows, the
earliest that its child delivered, in ascending order. -/
theorem keeps_first_of_class (pageSize numBuffers : Nat) (child : Cursor σ) (root : TempRoot)
    (s : State (MergeSort.State σ)) (c d : σ) (batches : List Batch)
    (hopen : child.openUp.Gives root child.start () c) (hdelivers : child.Delivers root c batches d)
    (hwidth : ∀ row ∈ batches.flatMap (·.rows), row.length = child.schema.length)
    (hcolumns : ∀ i < child.schema.length,
      Field.AreOrdered ((batches.flatMap (·.rows)).filterMap (·[i]?)))
    (hdistinct : (cursor pageSize numBuffers child).openUp.Gives root
      (cursor pageSize numBuffers child).start () s) :
    ∃ kept t, (cursor pageSize numBuffers child).drain.Gives root s
        (Batch.pages (pageSize / child.schema.rowSize) kept, none) t ∧
      kept.Pairwise (fun a b => Row.compare a b = .lt) ∧
      kept.Pairwise (fun a b => Row.equals a b = false) ∧
      (∀ row ∈ batches.flatMap (·.rows), kept.countP row.equals = 1) ∧
      ∀ row ∈ kept, (batches.flatMap (·.rows)).find? row.equals = some row := by
  let spec := sortSpec pageSize numBuffers child.schema
  obtain ⟨hc, sorted, hsort, rfl⟩ := exists_of_gives_openUp rfl hdistinct
  obtain ⟨hroom, reader, hsorted, hisOpen, hreader⟩ :=
    MergeSort.exists_hasSorted_of_gives rfl rfl hopen hdelivers hsort
  have hordered : Row.AreOrderedOn spec.key (batches.flatMap (·.rows)) := by
    refine ⟨fun row hrow i hi => ?_, fun i hi => hcolumns i (List.mem_range.mp hi)⟩
    rw [hwidth row hrow]
    exact List.mem_range.mp hi
  obtain ⟨o⟩ := KeyOrder.nonempty_of_areOrderedOn hordered false
  obtain ⟨hstrict, hone, hfirst⟩ := keepChanges_sortBy o hwidth
  -- The sort is before the pages of the sorted rows, so this is what is still to be brought.
  have hrows : (RunSet.sortedPages spec (pageSize / child.schema.rowSize)
      (batches.flatMap (·.rows))).flatMap (·.rows) =
        Row.sortBy spec.key false (batches.flatMap (·.rows)) :=
    Batch.flatMap_rows_pages hc _
  have hbrings : Brings (MergeSort.standing (Standing.any σ)) (pageSize / child.schema.rowSize) _
      ⟨sorted, true, pageSize / child.schema.rowSize, none, []⟩
      (keepChanges none (Row.sortBy spec.key false (batches.flatMap (·.rows)))) :=
    ⟨rfl, rfl, _, ⟨hisOpen, Standing.possible_any _, reader, hreader, hsorted.handsOut hroom o⟩,
      congrArg (keepChanges none) hrows.symm, rfl⟩
  have hfills := fills (MergeSort.handsPages spec child root (Standing.any σ)) pageSize hroom.page
  obtain ⟨t, u, hyields, hend⟩ := (hfills.supplies ⟨hc, _, _, hbrings, rfl⟩).exists_yields
  refine ⟨_, u, hyields.drain hend, hstrict, hstrict.imp fun {a b} hlt => ?_, hone, hfirst⟩
  rw [Row.equals_eq_compare, hlt]
  rfl

def repeatedPages : List Batch :=
  [⟨4, [[.int 2], [.int 1]]⟩, ⟨4, [[.float ⟨0x3FF0000000000000⟩], [.null]]⟩,
    ⟨4, [[.float ⟨0x4000000000000000⟩], [.float ⟨0x4008000000000000⟩], [.int 3]]⟩]

def repeatedChild : Cursor Script :=
  Script.cursor "c" (Sample.intSchema "t" 1)
    ⟨[], repeatedPages.map fun page => .ok (some page), []⟩

theorem delivers_repeatedPages :
    repeatedChild.Delivers ⟨true⟩ repeatedChild.start repeatedPages ⟨[], [], []⟩ :=
  ⟨_, none, .cons ⟨rfl, rfl⟩ (by decide) (.cons ⟨rfl, rfl⟩ (by decide)
    (.cons ⟨rfl, rfl⟩ (by decide) (.nil _))), ⟨rfl, rfl⟩, rfl⟩

/-- Through three runs the integer 1 is kept rather than the double behind it, and the double 3.0
rather than the integer behind it. -/
theorem keeps_first_of_class_repeatedPages :
    ∃ s kept t, (cursor 4 3 repeatedChild).openUp.Gives ⟨true⟩ (cursor 4 3 repeatedChild).start () s ∧
      (cursor 4 3 repeatedChild).drain.Gives ⟨true⟩ s (Batch.pages 1 kept, none) t ∧
      [.int 1] ∈ kept ∧ [.float ⟨0x3FF0000000000000⟩] ∉ kept ∧
      [.float ⟨0x4008000000000000⟩] ∈ kept ∧ [.int 3] ∉ kept := by
  have hordered : Row.AreOrderedOn [0] (repeatedPages.flatMap (·.rows)) := by decide
  obtain ⟨o⟩ := KeyOrder.nonempty_of_areOrderedOn hordered false
  have hcan : CanSort (sortSpec 4 3 repeatedChild.schema) 1 (repeatedPages.flatMap (·.rows)) :=
    ⟨by decide, by decide, ⟨by decide, by decide, by decide⟩, ⟨by decide, by decide⟩, by decide⟩
  obtain ⟨sorted, hsort, -, -⟩ := MergeSort.exists_gives_openUp
    (s := (cursor 4 3 repeatedChild).start.sort) (by decide) hcan o (by decide) (by decide) rfl rfl
    (c := repeatedChild.start) ⟨rfl, rfl⟩ delivers_repeatedPages rfl
  have hopened : (cursor 4 3 repeatedChild).openUp.Gives ⟨true⟩ (cursor 4 3 repeatedChild).start ()
      ⟨sorted, true, 1, none, []⟩ := gives_openUp rfl (by decide) hsort
  obtain ⟨kept, t, hdrain, -, -, hone, hfirst⟩ := keeps_first_of_class 4 3 repeatedChild ⟨true⟩ _
    repeatedChild.start ⟨[], [], []⟩ repeatedPages ⟨rfl, rfl⟩ delivers_repeatedPages (by decide)
    (by decide) hopened
  have hrepresented : ∀ row ∈ repeatedPages.flatMap (·.rows), ∃ other ∈ kept,
      row.equals other = true := by
    intro row hrow
    exact List.countP_pos_iff.mp (by rw [hone row hrow]; exact Nat.one_pos)
  have honly : ∀ row ∈ [[.int 1], [.float ⟨0x4008000000000000⟩]], ∀ other ∈
      repeatedPages.flatMap (·.rows), Row.equals row other = true →
        (repeatedPages.flatMap (·.rows)).find? other.equals = some other → other = row := by
    decide +kernel
  have hkept : ∀ row ∈ [[.int 1], [.float ⟨0x4008000000000000⟩]], row ∈ kept := by
    intro row hrow
    have hin : row ∈ repeatedPages.flatMap (·.rows) := by
      revert row
      decide +kernel
    obtain ⟨other, hother, hequals⟩ := hrepresented row hin
    have hfind := hfirst other hother
    obtain rfl := honly row hrow other (List.mem_of_find?_eq_some hfind) hequals hfind
    exact hother
  refine ⟨_, kept, t, hopened, hdrain, hkept _ (by decide), fun h => ?_, hkept _ (by decide),
    fun h => ?_⟩
  · exact absurd (hfirst _ h) (by decide +kernel)
  · exact absurd (hfirst _ h) (by decide +kernel)

end Distinct
end PagedQuery
