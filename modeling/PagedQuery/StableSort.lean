/-!
# Stable sorting

`stableSort le xs` sorts by halving and merging; elements that are in order either way keep their
places. The recursion is structural, so the sort can be evaluated inside a proof, and it agrees with
the core library's `List.mergeSort` for every comparison, which gives it all the lemmas known there.
-/

namespace PagedQuery

/-- Merges `x` and what `rest` makes of the other elements behind it with a list. -/
def mergeHead {α : Type} (le : α → α → Bool) (x : α) (rest : List α → List α) : List α → List α
  | [] => x :: rest []
  | y :: ys => if le x y then x :: rest (y :: ys) else y :: mergeHead le x rest ys

def stableMerge {α : Type} (le : α → α → Bool) : List α → List α → List α
  | [], ys => ys
  | x :: xs, ys => mergeHead le x (stableMerge le xs) ys

/-- Sorts by halving, to the given depth. -/
def sortToDepth {α : Type} (le : α → α → Bool) : Nat → List α → List α
  | 0, xs => xs
  | _ + 1, [] => []
  | _ + 1, [x] => [x]
  | depth + 1, x :: y :: xs =>
    let all := x :: y :: xs
    let half := (all.length + 1) / 2
    stableMerge le (sortToDepth le depth (all.take half)) (sortToDepth le depth (all.drop half))

def stableSort {α : Type} (le : α → α → Bool) (xs : List α) : List α :=
  sortToDepth le xs.length xs

theorem stableMerge_eq_merge {α : Type} (le : α → α → Bool) (xs ys : List α) :
    stableMerge le xs ys = xs.merge ys le := by
  induction xs generalizing ys with
  | nil => simp [stableMerge]
  | cons x xs ih =>
    induction ys with
    | nil => simp [stableMerge, mergeHead, ih]
    | cons y ys ihy =>
      rw [stableMerge, mergeHead, List.cons_merge_cons]
      split
      · rw [ih]
      · rw [← ihy, stableMerge]

/-- With enough depth the sort is that of the core library. -/
theorem sortToDepth_eq_mergeSort {α : Type} (le : α → α → Bool) (depth : Nat) (xs : List α)
    (h : xs.length ≤ depth) : sortToDepth le depth xs = xs.mergeSort le := by
  induction depth generalizing xs with
  | zero =>
    obtain rfl : xs = [] := by simpa using h
    simp [sortToDepth]
  | succ depth ih =>
    match xs with
    | [] => simp [sortToDepth]
    | [x] => simp [sortToDepth]
    | x :: y :: xs =>
      rw [sortToDepth, List.mergeSort]
      simp only [List.MergeSort.Internal.splitInTwo_fst, List.MergeSort.Internal.splitInTwo_snd]
      rw [ih _ (by simp only [List.length_take, List.length_cons] at *; omega),
        ih _ (by simp only [List.length_drop, List.length_cons] at *; omega), stableMerge_eq_merge]

theorem stableSort_eq_mergeSort {α : Type} (le : α → α → Bool) (xs : List α) :
    stableSort le xs = xs.mergeSort le :=
  sortToDepth_eq_mergeSort le xs.length xs (Nat.le_refl _)

end PagedQuery
