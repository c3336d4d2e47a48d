import Mathlib.Data.List.Sort
import PagedQuery.StableSort

/-!
# Stable sorts of parts

A stable sort can be made in parts: sorted parts, put in a row and sorted, give the sort of the
whole, and the least item of all can be taken off the front. Both come from how one more item in
front is sorted, which is by insertion before those that it precedes or equals.
-/

namespace PagedQuery

/-- A comparison to sort by. -/
structure Orders {α : Type} (le : α → α → Bool) : Prop where
  trans : ∀ a b c, le a b = true → le b c = true → le a c = true
  total : ∀ a b, (le a b || le b a) = true

namespace Orders

variable {α : Type} {le : α → α → Bool} {a b : α} {xs ys : List α}

theorem of_not (h : Orders le) (hab : le a b = false) : le b a = true := by
  have htotal := h.total a b
  rwa [hab, Bool.false_or] at htotal

theorem mergeSort_cons (h : Orders le) (a : α) (xs : List α) :
    (a :: xs).mergeSort le = (xs.mergeSort le).orderedInsert (le · · = true) a := by
  obtain ⟨front, back, hcons, hxs, hfront⟩ := List.mergeSort_cons h.trans h.total a xs
  have hsorted := List.pairwise_mergeSort h.trans h.total (a :: xs)
  rw [hcons, List.pairwise_append, List.pairwise_cons] at hsorted
  have hback := hsorted.2.1.1
  rw [hcons, hxs]
  clear hcons hxs hsorted
  induction front with
  | nil =>
    cases back with
    | nil => rfl
    | cons b back =>
      rw [List.nil_append, List.nil_append, List.orderedInsert_cons,
        if_pos (hback b List.mem_cons_self)]
  | cons b front ih =>
    rw [List.forall_mem_cons] at hfront
    have hb : ¬le a b = true := by simpa using hfront.1
    rw [List.cons_append, List.cons_append, List.orderedInsert_cons, if_neg hb, ih hfront.2]

theorem orderedInsert_comm (h : Orders le) (hab : le a b = false) (xs : List α) :
    (xs.orderedInsert (le · · = true) b).orderedInsert (le · · = true) a =
      (xs.orderedInsert (le · · = true) a).orderedInsert (le · · = true) b := by
  have hba := h.of_not hab
  have hnot : ¬le a b = true := by simp [hab]
  induction xs with
  | nil => simp [hab, hba]
  | cons c xs ih =>
    by_cases hbc : le b c = true
    · by_cases hac : le a c = true
      · simp [hbc, hac, hab, hba]
      · simp [hbc, hac, hab]
    · have hac : ¬le a c = true := fun hac => hbc (h.trans b a c hba hac)
      simp [hbc, hac, ih]

/-- An item may move in front of items that come before it. -/
theorem mergeSort_append_cons (h : Orders le) (hxs : ∀ b ∈ xs, le a b = false) :
    (xs ++ a :: ys).mergeSort le = (a :: (xs ++ ys)).mergeSort le := by
  induction xs with
  | nil => rfl
  | cons b xs ih =>
    rw [List.forall_mem_cons] at hxs
    rw [List.cons_append, h.mergeSort_cons b, ih hxs.2, h.mergeSort_cons a, h.mergeSort_cons a,
      List.cons_append, h.mergeSort_cons b, h.orderedInsert_comm hxs.1]

/-- The item that comes before all those on its left and is not behind any on its right is the
first. -/
theorem mergeSort_extract (h : Orders le) (hxs : ∀ b ∈ xs, le b a = false)
    (hys : ∀ b ∈ ys, le a b = true) :
    (xs ++ a :: ys).mergeSort le = a :: (xs ++ ys).mergeSort le := by
  induction xs with
  | nil =>
    rw [List.nil_append, List.nil_append, h.mergeSort_cons]
    cases hsorted : ys.mergeSort le with
    | nil => rfl
    | cons b rest =>
      have hb : b ∈ ys.mergeSort le := by
        rw [hsorted]
        exact List.mem_cons_self
      rw [List.orderedInsert_cons, if_pos (hys b (List.mem_mergeSort.mp hb))]
  | cons b xs ih =>
    rw [List.forall_mem_cons] at hxs
    have hb : ¬le b a = true := by simp [hxs.1]
    rw [List.cons_append, h.mergeSort_cons b, ih hxs.2, List.orderedInsert_cons, if_neg hb,
      List.cons_append, h.mergeSort_cons b]

theorem mergeSort_mergeSort (h : Orders le) (xs : List α) :
    (xs.mergeSort le).mergeSort le = xs.mergeSort le :=
  List.mergeSort_of_pairwise (List.pairwise_mergeSort h.trans h.total xs)

theorem mergeSort_append_mergeSort (h : Orders le) (xs ys : List α) :
    (xs ++ ys.mergeSort le).mergeSort le = (xs ++ ys).mergeSort le := by
  induction xs with
  | nil => exact h.mergeSort_mergeSort ys
  | cons a xs ih =>
    rw [List.cons_append, h.mergeSort_cons, ih, List.cons_append, h.mergeSort_cons]

theorem mergeSort_mergeSort_append (h : Orders le) (xs ys : List α) :
    (xs.mergeSort le ++ ys).mergeSort le = (xs ++ ys).mergeSort le := by
  induction xs with
  | nil => rw [List.mergeSort_nil]
  | cons a xs ih =>
    obtain ⟨front, back, hcons, hxs, hfront⟩ := List.mergeSort_cons h.trans h.total a xs
    have hstrict : ∀ b ∈ front, le a b = false := fun b hb => by simpa using hfront b hb
    rw [hxs] at ih
    calc ((a :: xs).mergeSort le ++ ys).mergeSort le
        = (front ++ a :: (back ++ ys)).mergeSort le := by
          rw [hcons, List.append_assoc, List.cons_append]
      _ = (a :: (front ++ back ++ ys)).mergeSort le := by
          rw [h.mergeSort_append_cons hstrict, List.append_assoc]
      _ = (a :: xs ++ ys).mergeSort le := by
          rw [h.mergeSort_cons, ih, List.cons_append, h.mergeSort_cons]

/-- Sorted parts in a row are sorted like the parts themselves. -/
theorem mergeSort_flatten (h : Orders le) (parts : List (List α)) :
    ((parts.map (·.mergeSort le)).flatten).mergeSort le = parts.flatten.mergeSort le := by
  induction parts with
  | nil => rfl
  | cons part parts ih =>
    rw [List.map_cons, List.flatten_cons, List.flatten_cons, h.mergeSort_mergeSort_append,
      ← h.mergeSort_append_mergeSort, ih, h.mergeSort_append_mergeSort]

end Orders

theorem mergeSort_congr {α : Type} {le le' : α → α → Bool} {xs : List α}
    (h : ∀ a ∈ xs, ∀ b ∈ xs, le a b = le' a b) : xs.mergeSort le = xs.mergeSort le' := by
  have hmap := List.map_mergeSort (f := id) (r := le) (s := le') (l := xs) h
  rwa [List.map_id, List.map_id] at hmap

end PagedQuery
