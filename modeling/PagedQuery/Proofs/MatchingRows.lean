import Mathlib.Data.List.Perm.Basic
import Mathlib.Data.List.TakeWhile
import PagedQuery.Proofs.MergedRows
import PagedQuery.Reference

namespace PagedQuery

open Row (keyOf)

/-- Whether the rows of two inputs can be compared by their keys. -/
structure Row.AreMatchable (leftKey rightKey : List Nat) (left right : List Row) : Prop where
  hasLeft : ∀ row ∈ left, Row.HasKey leftKey row
  hasRight : ∀ row ∈ right, Row.HasKey rightKey row
  columns : ∀ positions ∈ leftKey.zip rightKey,
    Field.AreOrdered (left.filterMap (·[positions.1]?) ++ right.filterMap (·[positions.2]?))

instance (leftKey rightKey : List Nat) (left right : List Row) :
    Decidable (Row.AreMatchable leftKey rightKey left right) :=
  decidable_of_iff ((∀ row ∈ left, Row.HasKey leftKey row) ∧
      (∀ row ∈ right, Row.HasKey rightKey row) ∧ ∀ positions ∈ leftKey.zip rightKey,
        Field.AreOrdered (left.filterMap (·[positions.1]?) ++ right.filterMap (·[positions.2]?)))
    ⟨fun h => ⟨h.1, h.2.1, h.2.2⟩, fun h => ⟨h.hasLeft, h.hasRight, h.columns⟩⟩

/-- The order of the keys of two inputs, as a transitive order of all keys. -/
structure JoinOrder (keys : Join.Keys) (left right : List Row) where
  compare : Row → Row → Ordering
  transCmp : Std.TransCmp compare
  hasLeft : ∀ row ∈ left, Row.HasKey keys.left row
  hasRight : ∀ row ∈ right, Row.HasKey keys.right row
  sameLength : keys.left.length = keys.right.length
  agrees : ∀ a ∈ left.map (keyOf keys.left) ++ right.map (keyOf keys.right),
    ∀ b ∈ left.map (keyOf keys.left) ++ right.map (keyOf keys.right), Row.compare a b = compare a b

namespace JoinOrder

variable {keys : Join.Keys} {left right L R band : List Row} {l r : Row}

theorem nonempty_of_areMatchable (h : Row.AreMatchable keys.left keys.right left right)
    (hlength : keys.left.length = keys.right.length) : Nonempty (JoinOrder keys left right) := by
  have hwidth : ∀ k ∈ left.map (keyOf keys.left) ++ right.map (keyOf keys.right),
      k.length = keys.left.length := by
    intro k hk
    rcases List.mem_append.mp hk with hk | hk
    · obtain ⟨row, -, rfl⟩ := List.mem_map.mp hk
      exact Row.length_keyOf keys.left row
    · obtain ⟨row, -, rfl⟩ := List.mem_map.mp hk
      rw [Row.length_keyOf, hlength]
  obtain ⟨cmp, htrans, hagrees⟩ := Row.exists_transCmp hwidth fun i hi => by
    have hi' : i < keys.right.length := by omega
    have hzip : i < (keys.left.zip keys.right).length := by
      rw [List.length_zip]
      omega
    have hcolumn := h.columns _ (List.getElem_mem hzip)
    rw [List.getElem_zip] at hcolumn
    rw [List.filterMap_append, Row.filterMap_keyOf h.hasLeft hi, Row.filterMap_keyOf h.hasRight hi']
    exact hcolumn
  exact ⟨⟨cmp, htrans, h.hasLeft, h.hasRight, hlength, hagrees⟩⟩

def onLeft (o : JoinOrder keys left right) : KeyOrder keys.left false left :=
  .ofKeys false o.compare o.transCmp o.hasLeft fun _ ha _ hb =>
    o.agrees _ (List.mem_append_left _ (List.mem_map_of_mem ha)) _
      (List.mem_append_left _ (List.mem_map_of_mem hb))

def onRight (o : JoinOrder keys left right) : KeyOrder keys.right false right :=
  .ofKeys false o.compare o.transCmp o.hasRight fun _ ha _ hb =>
    o.agrees _ (List.mem_append_right _ (List.mem_map_of_mem ha)) _
      (List.mem_append_right _ (List.mem_map_of_mem hb))

def across (o : JoinOrder keys left right) (l r : Row) : Ordering :=
  o.compare (keyOf keys.left l) (keyOf keys.right r)

theorem compareOn?_across (o : JoinOrder keys left right) (hl : l ∈ left) (hr : r ∈ right) :
    Row.compareOn? l r keys.left keys.right = some (o.across l r) := by
  rw [Row.compareOn?_of_hasKey (o.hasLeft l hl) (o.hasRight r hr) o.sameLength]
  exact congrArg some (o.agrees _ (List.mem_append_left _ (List.mem_map_of_mem hl)) _
    (List.mem_append_right _ (List.mem_map_of_mem hr)))

theorem compareOn?_right (o : JoinOrder keys left right) {r' : Row} (hr : r ∈ right)
    (hr' : r' ∈ right) : Row.compareOn? r r' keys.right keys.right =
      some (o.compare (keyOf keys.right r) (keyOf keys.right r')) := by
  rw [Row.compareOn?_of_hasKey (o.hasRight r hr) (o.hasRight r' hr') rfl]
  exact congrArg some (o.agrees _ (List.mem_append_right _ (List.mem_map_of_mem hr)) _
    (List.mem_append_right _ (List.mem_map_of_mem hr')))

/-- The pairs of a left row with those of some right rows that match it. -/
def pairsOf (o : JoinOrder keys left right) (R : List Row) (l : Row) : List Row :=
  (R.filter fun r => o.across l r == .eq).map (l ++ ·)

/-- All pairs of matching rows, in the order of the left rows. -/
def pairs (o : JoinOrder keys left right) (L R : List Row) : List Row := L.flatMap (o.pairsOf R)

theorem matches?_eq (o : JoinOrder keys left right) (hl : l ∈ left) (hR : R ⊆ right) :
    Row.matches? keys.left keys.right l R = some (o.pairsOf R l) := by
  induction R with
  | nil => rfl
  | cons r R ih =>
    rw [List.cons_subset] at hR
    rw [Row.matches?, o.compareOn?_across hl hR.1, ih hR.2]
    by_cases h : o.across l r = .eq
    · simp [pairsOf, h]
    · simp [pairsOf, h]

/-- Joining by nested loops gives the pairs of matching rows. -/
theorem nestedLoopJoin?_eq (o : JoinOrder keys left right) (hL : L ⊆ left) (hR : R ⊆ right) :
    nestedLoopJoin? keys.left keys.right L R = some (o.pairs L R) := by
  have hrows : L.mapM (fun row => Row.matches? keys.left keys.right row R) =
      some (L.map (o.pairsOf R)) := by
    induction L with
    | nil => rfl
    | cons l L ih =>
      rw [List.cons_subset] at hL
      rw [List.mapM_cons, o.matches?_eq hL.1 hR, ih hL.2]
      rfl
  rw [nestedLoopJoin?, hrows, Option.map_some, ← List.flatMap_def]
  rfl

/-- The order of the inputs decides only about the order of the pairs. -/
theorem pairs_perm (o : JoinOrder keys left right) {L' R' : List Row} (hL : L.Perm L')
    (hR : R.Perm R') : (o.pairs L R).Perm (o.pairs L' R') :=
  hL.flatMap fun _ _ => (hR.filter _).map _

theorem pairsOf_eq_nil (o : JoinOrder keys left right) (h : ∀ r ∈ R, o.across l r ≠ .eq) :
    o.pairsOf R l = [] := by
  rw [pairsOf, List.filter_eq_nil_iff.mpr fun r hr => by simpa using h r hr]
  rfl

theorem pairsOf_of_forall (o : JoinOrder keys left right) (h : ∀ r ∈ R, o.across l r = .eq) :
    o.pairsOf R l = R.map (l ++ ·) := by
  rw [pairsOf, List.filter_eq_self.mpr fun r hr => by simpa using h r hr]

theorem pairsOf_append (o : JoinOrder keys left right) (R R' : List Row) (l : Row) :
    o.pairsOf (R ++ R') l = o.pairsOf R l ++ o.pairsOf R' l := by
  rw [pairsOf, List.filter_append, List.map_append]
  rfl

theorem pairs_nil_right (o : JoinOrder keys left right) (L : List Row) : o.pairs L [] = [] :=
  List.flatMap_eq_nil_iff.mpr fun _ _ => rfl

theorem pairs_append_of_forall (o : JoinOrder keys left right) {R' : List Row}
    (h : ∀ l ∈ L, ∀ r ∈ R, o.across l r ≠ .eq) : o.pairs L (R ++ R') = o.pairs L R' := by
  unfold pairs
  refine List.flatMap_congr fun l hl => ?_
  rw [pairsOf_append, o.pairsOf_eq_nil (h l hl), List.nil_append]

/-- A left row before a right row is before all that may follow it. -/
theorem across_eq_lt_of_le (o : JoinOrder keys left right) {r' : Row} (h : o.across l r = .lt)
    (hle : o.onRight.le r r' = true) : o.across l r' = .lt := by
  have htrans := o.transCmp
  exact show o.compare _ _ = .lt from Std.TransCmp.lt_of_lt_of_isLE h hle

theorem across_eq_gt_of_le (o : JoinOrder keys left right) {l' : Row} (h : o.across l r = .gt)
    (hle : o.onLeft.le l l' = true) : o.across l' r = .gt := by
  have htrans := o.transCmp
  have hlt : o.compare (keyOf keys.right r) (keyOf keys.left l') = .lt :=
    Std.TransCmp.lt_of_lt_of_isLE (Std.OrientedCmp.lt_of_gt h) hle
  exact show o.compare _ _ = .gt from Std.OrientedCmp.gt_of_lt hlt

theorem across_eq_lt_of_pairwise (o : JoinOrder keys left right)
    (hsorted : (r :: R).Pairwise (o.onRight.le · · = true)) (h : o.across l r = .lt) :
    ∀ r' ∈ r :: R, o.across l r' = .lt :=
  List.forall_mem_cons.mpr ⟨h, fun r' hr' =>
    o.across_eq_lt_of_le h ((List.pairwise_cons.mp hsorted).1 r' hr')⟩

theorem across_eq_gt_of_pairwise (o : JoinOrder keys left right)
    (hsorted : (l :: L).Pairwise (o.onLeft.le · · = true)) (h : o.across l r = .gt) :
    ∀ l' ∈ l :: L, o.across l' r = .gt :=
  List.forall_mem_cons.mpr ⟨h, fun l' hl' =>
    o.across_eq_gt_of_le h ((List.pairwise_cons.mp hsorted).1 l' hl')⟩

/-- A left row before the first right row matches none. -/
theorem pairs_skip_left (o : JoinOrder keys left right)
    (hsorted : (r :: R).Pairwise (o.onRight.le · · = true)) (h : o.across l r = .lt) :
    o.pairs (l :: L) (r :: R) = o.pairs L (r :: R) := by
  have hnone : o.pairsOf (r :: R) l = [] := o.pairsOf_eq_nil fun r' hr' => by
    rw [o.across_eq_lt_of_pairwise hsorted h r' hr']
    decide
  rw [pairs, List.flatMap_cons, hnone, List.nil_append]
  rfl

theorem pairs_skip_right (o : JoinOrder keys left right)
    (hsorted : (l :: L).Pairwise (o.onLeft.le · · = true)) (h : o.across l r = .gt) :
    o.pairs (l :: L) (r :: R) = o.pairs (l :: L) R := by
  refine o.pairs_append_of_forall (R := [r]) fun l' hl' r' hr' => ?_
  obtain rfl := List.mem_singleton.mp hr'
  rw [o.across_eq_gt_of_pairwise hsorted h l' hl']
  decide

/-- Whether the band holds the right rows that match a left row, and all others are behind. -/
structure IsBand (o : JoinOrder keys left right) (band R : List Row) (l : Row) : Prop where
  nonempty : band ≠ []
  equal : ∀ r ∈ band, o.across l r = .eq
  behind : ∀ r ∈ R, o.across l r = .lt

namespace IsBand

variable {o : JoinOrder keys left right} {first l' : Row}

theorem pairs_eq (h : o.IsBand band R l) (L : List Row) :
    o.pairs (l :: L) (band ++ R) = band.map (l ++ ·) ++ o.pairs L (band ++ R) := by
  have hnone : o.pairsOf R l = [] := o.pairsOf_eq_nil fun r hr => by
    rw [h.behind r hr]
    decide
  rw [pairs, List.flatMap_cons, pairsOf_append, o.pairsOf_of_forall h.equal, hnone, List.append_nil]
  rfl

theorem of_first (h : o.IsBand band R l) (hfirst : first ∈ band) (heq : o.across l' first = .eq) :
    o.IsBand band R l' := by
  have htrans := o.transCmp
  have hsame : o.compare (keyOf keys.left l) (keyOf keys.left l') = .eq :=
    Std.TransCmp.eq_trans (h.equal first hfirst) (Std.OrientedCmp.eq_symm heq)
  refine ⟨h.nonempty, fun r hr => ?_, fun r hr => ?_⟩
  · rw [across, ← Std.TransCmp.congr_left hsame]
    exact h.equal r hr
  · rw [across, ← Std.TransCmp.congr_left hsame]
    exact h.behind r hr

/-- A left row that follows a row of the band and does not equal its first row is behind it. -/
theorem across_eq_gt (h : o.IsBand band R l) (hfirst : first ∈ band) (hle : o.onLeft.le l l' = true)
    (hne : o.across l' first ≠ .eq) : ∀ r ∈ band, o.across l' r = .gt := by
  have htrans := o.transCmp
  intro r hr
  have hequal : o.compare (keyOf keys.left l) (keyOf keys.right r) = .eq := h.equal r hr
  have habove : (o.compare (keyOf keys.right r) (keyOf keys.left l')).isLE = true := by
    rw [← Std.TransCmp.congr_left hequal]
    exact hle
  cases hacross : o.across l' r with
  | lt =>
    have hbelow : o.compare (keyOf keys.right r) (keyOf keys.left l') = .gt :=
      Std.OrientedCmp.gt_of_lt hacross
    rw [hbelow] at habove
    cases habove
  | eq => exact absurd ((h.of_first hr hacross).equal first hfirst) hne
  | gt => rfl

/-- Once a left row is behind the band, all are. -/
theorem pairs_leave (h : o.IsBand band R l) (hfirst : first ∈ band)
    (hsorted : (l :: l' :: L).Pairwise (o.onLeft.le · · = true)) (hne : o.across l' first ≠ .eq) :
    o.pairs (l' :: L) (band ++ R) = o.pairs (l' :: L) R := by
  rw [List.pairwise_cons] at hsorted
  refine o.pairs_append_of_forall fun m hm r hr => ?_
  have hgt := h.across_eq_gt hfirst (hsorted.1 l' List.mem_cons_self) hne r hr
  rw [o.across_eq_gt_of_pairwise hsorted.2 hgt m hm]
  decide

end IsBand

/-- The right rows that equal the first one are the band of a left row that does. -/
theorem isBand_of_first (o : JoinOrder keys left right) {R₁ R₂ : List Row}
    (hsorted : (r :: (R₁ ++ R₂)).Pairwise (o.onRight.le · · = true)) (h : o.across l r = .eq)
    (hequal : ∀ r' ∈ R₁, o.onRight.compare r' r = .eq)
    (hnext : ∀ r' ∈ R₂.head?, o.onRight.compare r' r ≠ .eq) : o.IsBand (r :: R₁) R₂ l := by
  have htrans := o.transCmp
  have hright := o.onRight.transCmp
  refine ⟨List.cons_ne_nil r R₁, fun r' hr' => ?_, fun r' hr' => ?_⟩
  · rcases List.mem_cons.mp hr' with rfl | hr'
    · exact h
    · exact show o.compare _ _ = .eq from
        Std.TransCmp.eq_trans h (Std.OrientedCmp.eq_symm (hequal r' hr'))
  · cases R₂ with
    | nil => cases hr'
    | cons next R₂ =>
      have hfront := (List.pairwise_cons.mp hsorted).1
      have hback := (List.pairwise_append.mp (List.pairwise_cons.mp hsorted).2).2.1
      have hle : (o.onRight.compare r next).isLE = true :=
        hfront next (List.mem_append_right R₁ List.mem_cons_self)
      have hne := hnext next rfl
      have hlt : o.compare (keyOf keys.right r) (keyOf keys.right next) = .lt := by
        cases horder : o.onRight.compare r next with
        | lt => exact horder
        | eq => exact absurd (Std.OrientedCmp.eq_symm horder) hne
        | gt =>
          rw [horder] at hle
          cases hle
      have hbehind : o.compare (keyOf keys.right r) (keyOf keys.right r') = .lt := by
        rcases List.mem_cons.mp hr' with rfl | hr'
        · exact hlt
        · exact Std.TransCmp.lt_of_lt_of_isLE hlt ((List.pairwise_cons.mp hback).1 r' hr')
      exact show o.compare _ _ = .lt from Std.TransCmp.lt_of_eq_of_lt h hbehind

theorem across_eq (o : JoinOrder keys left right) (hl : l ∈ left) (hr : r ∈ right) :
    Join.across keys l r = o.across l r :=
  o.agrees _ (List.mem_append_left _ (List.mem_map_of_mem hl)) _
    (List.mem_append_right _ (List.mem_map_of_mem hr))

theorem isSameBand_iff (o : JoinOrder keys left right) {first : Row} (hfirst : first ∈ right)
    (hr : r ∈ right) : Join.isSameBand keys first r = true ↔ o.onRight.compare r first = .eq := by
  have hagrees : Row.compare (keyOf keys.right r) (keyOf keys.right first) = o.onRight.compare r first :=
    o.agrees _ (List.mem_append_right _ (List.mem_map_of_mem hr)) _
      (List.mem_append_right _ (List.mem_map_of_mem hfirst))
  rw [Join.isSameBand, beq_iff_eq, hagrees]

/-- The first right row and those that belong to its band are the band of a left row that equals
it. -/
theorem isBand_takeWhile (o : JoinOrder keys left right) (hr : r ∈ right) (hR : R ⊆ right)
    (hsorted : (r :: R).Pairwise (o.onRight.le · · = true)) (h : o.across l r = .eq) :
    o.IsBand (r :: R.takeWhile (Join.isSameBand keys r)) (R.dropWhile (Join.isSameBand keys r)) l := by
  have hsplit := List.takeWhile_append_dropWhile (p := Join.isSameBand keys r) (l := R)
  have hfront : R.takeWhile (Join.isSameBand keys r) ⊆ R := (List.takeWhile_prefix _).subset
  have hback : R.dropWhile (Join.isSameBand keys r) <:+ R := List.dropWhile_suffix _
  refine o.isBand_of_first (by rwa [hsplit]) h (fun r' hr' => ?_) fun r' hr' => ?_
  · exact (o.isSameBand_iff hr (hR (hfront hr'))).mp (List.mem_takeWhile_imp hr')
  · have hmem : r' ∈ R := hback.subset (List.mem_of_mem_head? hr')
    have hother := List.head?_dropWhile_not (Join.isSameBand keys r) R
    rw [hr'] at hother
    intro hequal
    cases ((o.isSameBand_iff hr (hR hmem)).mpr hequal).symm.trans hother

/-- The left rows of a band bring all their pairs, if the rows behind them do. -/
theorem bandRows_eq_pairs (o : JoinOrder keys left right) {first : Row} (hband : o.IsBand band R l)
    (hfirst : first ∈ band) (hL : L ⊆ left) (hright : first ∈ right)
    (hsorted : (l :: L).Pairwise (o.onLeft.le · · = true))
    (hrest : Join.mergeRows keys (L.dropWhile (Join.across keys · first == .eq)) R =
      o.pairs (L.dropWhile (Join.across keys · first == .eq)) R) :
    Join.bandRows keys first band L R = o.pairs L (band ++ R) := by
  induction L generalizing l with
  | nil => exact Join.bandRows_nil keys first band R
  | cons l' L ih =>
    rw [List.cons_subset] at hL
    have hacross := o.across_eq hL.1 hright
    by_cases hequal : Join.across keys l' first = .eq
    · have hband' := hband.of_first hfirst (hacross ▸ hequal)
      rw [List.dropWhile_cons_of_pos (by simpa using hequal)] at hrest
      rw [Join.bandRows_of_eq hequal, hband'.pairs_eq,
        ih hband' hL.2 (List.pairwise_cons.mp hsorted).2 hrest]
    · rw [List.dropWhile_cons_of_neg (by simpa using hequal)] at hrest
      rw [Join.bandRows_of_ne hequal, hrest, hband.pairs_leave hfirst hsorted (hacross ▸ hequal)]

/-- Merging sorted rows finds all pairs of matching ones. -/
theorem mergeRows_eq_pairs (o : JoinOrder keys left right) (hL : L ⊆ left) (hR : R ⊆ right)
    (hleft : L.Pairwise (o.onLeft.le · · = true)) (hright : R.Pairwise (o.onRight.le · · = true)) :
    Join.mergeRows keys L R = o.pairs L R := by
  induction L, R using Join.mergeRows.induct keys with
  | case1 R => exact Join.mergeRows_nil_left keys R
  | case2 l L => rw [Join.mergeRows_nil_right, pairs_nil_right]
  | case3 l L r R hacross ih =>
    have hlt : o.across l r = .lt :=
      o.across_eq (hL List.mem_cons_self) (hR List.mem_cons_self) ▸ hacross
    rw [Join.mergeRows_of_lt hacross, o.pairs_skip_left hright hlt]
    exact ih (List.cons_subset.mp hL).2 hR (List.pairwise_cons.mp hleft).2 hright
  | case4 l L r R hacross ih =>
    have hgt : o.across l r = .gt :=
      o.across_eq (hL List.mem_cons_self) (hR List.mem_cons_self) ▸ hacross
    rw [Join.mergeRows_of_gt hacross, o.pairs_skip_right hleft hgt]
    exact ih hL (List.cons_subset.mp hR).2 hleft (List.pairwise_cons.mp hright).2
  | case5 l L r R hacross ih =>
    rw [List.cons_subset] at hL hR
    have heq : o.across l r = .eq := o.across_eq hL.1 hR.1 ▸ hacross
    have hsplit := List.takeWhile_append_dropWhile (p := Join.isSameBand keys r) (l := R)
    have hback : R.dropWhile (Join.isSameBand keys r) <:+ R := List.dropWhile_suffix _
    have hrest : L.dropWhile (Join.across keys · r == .eq) <:+ L := List.dropWhile_suffix _
    have hband := o.isBand_takeWhile hR.1 hR.2 hright heq
    have hpairs := ih (List.Subset.trans hrest.subset hL.2) (List.Subset.trans hback.subset hR.2)
      ((List.pairwise_cons.mp hleft).2.sublist hrest.sublist)
      ((List.pairwise_cons.mp hright).2.sublist hback.sublist)
    have hwhole : r :: R = r :: R.takeWhile (Join.isSameBand keys r) ++
        R.dropWhile (Join.isSameBand keys r) := by
      rw [List.cons_append, hsplit]
    rw [Join.mergeRows_of_eq hacross, hwhole, hband.pairs_eq,
      o.bandRows_eq_pairs hband List.mem_cons_self hL.2 hR.1 hleft hpairs]

end JoinOrder

end PagedQuery
