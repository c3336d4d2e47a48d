import PagedQuery.Operator.Join
import PagedQuery.Proofs.KeyOrder

/-!
# Merging rows on equal keys

A merge of two inputs moves on on the side with the lesser key. Where the keys are equal, the right
rows that equal the first one make a band, and all left rows that equal its first row are paired with
it. This is what a join of the inputs brings, in whatever order their rows are.
-/

namespace PagedQuery
namespace Join

open Row (keyOf)

variable {keys : Keys} {l r first : Row} {L R band : List Row}

/-- How a left row compares with a right row. -/
def across (keys : Keys) (l r : Row) : Ordering := Row.compare (keyOf keys.left l) (keyOf keys.right r)

/-- Whether a right row belongs to the band of another one. -/
def isSameBand (keys : Keys) (first r : Row) : Bool :=
  Row.compare (keyOf keys.right r) (keyOf keys.right first) == .eq

/-- The pairs of two inputs. -/
def mergeRows (keys : Keys) : List Row → List Row → List Row
  | [], _ => []
  | _ :: _, [] => []
  | l :: L, r :: R =>
    match across keys l r with
    | .lt => mergeRows keys L (r :: R)
    | .gt => mergeRows keys (l :: L) R
    | .eq =>
      let band := r :: R.takeWhile (isSameBand keys r)
      band.map (l ++ ·) ++
        ((L.takeWhile (across keys · r == .eq)).flatMap (fun l => band.map (l ++ ·)) ++
          mergeRows keys (L.dropWhile (across keys · r == .eq)) (R.dropWhile (isSameBand keys r)))
termination_by L R => L.length + R.length
decreasing_by
  · simp only [List.length_cons]
    omega
  · simp only [List.length_cons]
    omega
  · have hleft := (List.dropWhile_suffix (l := L) (across keys · r == .eq)).length_le
    have hright := (List.dropWhile_suffix (l := R) (isSameBand keys r)).length_le
    simp only [List.length_cons]
    omega

/-- The pairs behind those of a left row with its band. -/
def bandRows (keys : Keys) (first : Row) (band L R : List Row) : List Row :=
  (L.takeWhile (across keys · first == .eq)).flatMap (fun l => band.map (l ++ ·)) ++
    mergeRows keys (L.dropWhile (across keys · first == .eq)) R

theorem mergeRows_nil_left (keys : Keys) (R : List Row) : mergeRows keys [] R = [] := by
  rw [mergeRows]

theorem mergeRows_nil_right (keys : Keys) (L : List Row) : mergeRows keys L [] = [] := by
  cases L with
  | nil => rw [mergeRows]
  | cons l L => rw [mergeRows]

theorem mergeRows_of_lt (h : across keys l r = .lt) :
    mergeRows keys (l :: L) (r :: R) = mergeRows keys L (r :: R) := by
  rw [mergeRows, h]

theorem mergeRows_of_gt (h : across keys l r = .gt) :
    mergeRows keys (l :: L) (r :: R) = mergeRows keys (l :: L) R := by
  rw [mergeRows, h]

theorem mergeRows_of_eq (h : across keys l r = .eq) :
    mergeRows keys (l :: L) (r :: R) = (r :: R.takeWhile (isSameBand keys r)).map (l ++ ·) ++
      bandRows keys r (r :: R.takeWhile (isSameBand keys r)) L (R.dropWhile (isSameBand keys r)) := by
  rw [mergeRows, h]
  rfl

theorem bandRows_nil (keys : Keys) (first : Row) (band R : List Row) :
    bandRows keys first band [] R = [] := by
  simp [bandRows, mergeRows]

theorem bandRows_of_eq (h : across keys l first = .eq) :
    bandRows keys first band (l :: L) R = band.map (l ++ ·) ++ bandRows keys first band L R := by
  simp [bandRows, h]

theorem bandRows_of_ne (h : across keys l first ≠ .eq) :
    bandRows keys first band (l :: L) R = mergeRows keys (l :: L) R := by
  simp [bandRows, h]

theorem length_band_pairs (L band : List Row) :
    (L.flatMap fun l => band.map (l ++ ·)).length = L.length * band.length := by
  induction L with
  | nil => simp
  | cons l L ih => rw [List.flatMap_cons, List.length_append, List.length_map, ih, List.length_cons,
      Nat.succ_mul, Nat.add_comm]

theorem length_bandRows_le_of (band : List Row)
    (h : (mergeRows keys (L.dropWhile (across keys · first == .eq)) R).length ≤
      (L.dropWhile (across keys · first == .eq)).length * R.length) :
    (bandRows keys first band L R).length ≤ L.length * (band.length + R.length) := by
  have hsplit : (L.takeWhile (across keys · first == .eq)).length +
      (L.dropWhile (across keys · first == .eq)).length = L.length := by
    rw [← List.length_append, List.takeWhile_append_dropWhile]
  rw [bandRows, List.length_append, length_band_pairs, ← hsplit, Nat.add_mul, Nat.mul_add, Nat.mul_add]
  omega

theorem length_mergeRows_le (keys : Keys) (L R : List Row) :
    (mergeRows keys L R).length ≤ L.length * R.length := by
  induction L, R using mergeRows.induct keys with
  | case1 R => simp [mergeRows]
  | case2 l L => simp [mergeRows]
  | case3 l L r R h ih =>
    rw [mergeRows_of_lt h, List.length_cons, Nat.succ_mul]
    omega
  | case4 l L r R h ih =>
    rw [mergeRows_of_gt h]
    exact Nat.le_trans ih (Nat.mul_le_mul_left _ (Nat.le_succ _))
  | case5 l L r R h ih =>
    have hband := length_bandRows_le_of (r :: R.takeWhile (isSameBand keys r)) ih
    have hsplit : (R.takeWhile (isSameBand keys r)).length +
        (R.dropWhile (isSameBand keys r)).length = R.length := by
      rw [← List.length_append, List.takeWhile_append_dropWhile]
    rw [List.length_cons] at hband
    rw [mergeRows_of_eq h, List.length_append, List.length_map, List.length_cons, List.length_cons,
      List.length_cons, Nat.succ_mul, ← hsplit]
    have hall : (R.takeWhile (isSameBand keys r)).length + 1 +
        (R.dropWhile (isSameBand keys r)).length =
        (R.takeWhile (isSameBand keys r)).length + (R.dropWhile (isSameBand keys r)).length + 1 := by
      omega
    rw [hall] at hband
    omega

theorem length_bandRows_le (keys : Keys) (first : Row) (band L R : List Row) :
    (bandRows keys first band L R).length ≤ L.length * (band.length + R.length) :=
  length_bandRows_le_of band (length_mergeRows_le keys _ R)

theorem exists_of_mem_mergeRows {row : Row} (h : row ∈ mergeRows keys L R) :
    ∃ l ∈ L, ∃ r ∈ R, row = l ++ r := by
  induction L, R using mergeRows.induct keys with
  | case1 R => simp [mergeRows] at h
  | case2 l L => simp [mergeRows] at h
  | case3 l L r R hlt ih =>
    rw [mergeRows_of_lt hlt] at h
    obtain ⟨l', hl', hr'⟩ := ih h
    exact ⟨l', List.mem_cons_of_mem l hl', hr'⟩
  | case4 l L r R hgt ih =>
    rw [mergeRows_of_gt hgt] at h
    obtain ⟨l', hl', r', hr', hrow⟩ := ih h
    exact ⟨l', hl', r', List.mem_cons_of_mem r hr', hrow⟩
  | case5 l L r R heq ih =>
    have hband : r :: R.takeWhile (isSameBand keys r) ⊆ r :: R :=
      List.cons_subset_cons r (List.takeWhile_prefix _).subset
    rw [mergeRows_of_eq heq, bandRows, List.mem_append, List.mem_append] at h
    rcases h with h | h | h
    · obtain ⟨r', hr', rfl⟩ := List.mem_map.mp h
      exact ⟨l, List.mem_cons_self, r', hband hr', rfl⟩
    · obtain ⟨l', hl', h⟩ := List.mem_flatMap.mp h
      obtain ⟨r', hr', rfl⟩ := List.mem_map.mp h
      exact ⟨l', List.mem_cons_of_mem l ((List.takeWhile_prefix _).subset hl'), r', hband hr', rfl⟩
    · obtain ⟨l', hl', r', hr', hrow⟩ := ih h
      exact ⟨l', List.mem_cons_of_mem l ((List.dropWhile_suffix _).subset hl'), r',
        List.mem_cons_of_mem r ((List.dropWhile_suffix _).subset hr'), hrow⟩

end Join
end PagedQuery
