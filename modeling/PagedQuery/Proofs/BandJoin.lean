import PagedQuery.Proofs.JoinSides
import PagedQuery.Proofs.MergedRows
import PagedQuery.Proofs.PageFilling

/-!
# Joining inputs

A join brings what merging the rows of its inputs brings. Between two steps it either looks for the
next rows that match, or it pairs a left row with the rest of a band. What it still has to bring can be
read off the rows that are left.
-/

namespace PagedQuery
namespace Join

variable {σ τ : Type} {keys : Keys} {left : Cursor σ} {right : Cursor τ}

theorem extendBand_congr {right' : Cursor τ} (h : right.ReadsAs right') (steps : Nat) :
    (extendBand keys right steps : Act (State σ τ) Unit) = extendBand keys right' steps := by
  induction steps with
  | zero => rfl
  | succ steps ih => simp only [extendBand, ih, Side.advance_congr h]

/-- The steps of a join read its inputs and do nothing else with them. -/
theorem step_congr {left' : Cursor σ} {right' : Cursor τ} (hleft : left.ReadsAs left')
    (hright : right.ReadsAs right') : step keys left right = step keys left' right' := by
  simp only [step, leaveBand, seekBand, fillBand, extendBand_congr hright, Side.advance_congr hleft,
    Side.advance_congr hright, Side.remaining, hright.volume]

/-- What is known of the inputs of a join after each page: they can be closed there. -/
structure Inputs (keys : Keys) (left : Cursor σ) (right : Cursor τ) where
  root : TempRoot
  leftKind : σ → Prop
  rightKind : τ → Prop
  leftClosed : σ → Prop
  rightClosed : τ → Prop
  sameLength : keys.left.length = keys.right.length
  leftCloses : ∀ s, leftKind s → ∃ t, leftClosed t ∧ left.close.Gives root s () t
  rightCloses : ∀ s, rightKind s → ∃ t, rightClosed t ∧ right.close.Gives root s () t

/-- The pairs still to come, by the band, the place in it and the rows left on both sides. -/
inductive Emits (keys : Keys) : Option Nat → List Row → List Row → List Row → List Row → Prop
  | seeking (L R : List Row) : Emits keys none [] L R (mergeRows keys L R)
  | pairing {index : Nat} {first l : Row} {band : List Row} (L R : List Row)
      (hindex : index ≤ (first :: band).length) :
      Emits keys (some index) (first :: band) (l :: L) R
        (((first :: band).drop index).map (l ++ ·) ++ bandRows keys first (first :: band) L R)

/-- A place in a join: the band, the row of it to pair next, and the rows left on both sides. -/
structure Place where
  bandIndex : Option Nat
  band : List Row
  lefts : List Row
  rights : List Row

/-- How a join moves on from a place, and the pair that it brings by that. -/
inductive Moves (keys : Keys) : Place → Option Row → Place → Prop
  | passLeft {l r : Row} {L R : List Row} (h : across keys l r = .lt) :
      Moves keys ⟨none, [], l :: L, r :: R⟩ none ⟨none, [], L, r :: R⟩
  | passRight {l r : Row} {L R : List Row} (h : across keys l r = .gt) :
      Moves keys ⟨none, [], l :: L, r :: R⟩ none ⟨none, [], l :: L, R⟩
  | begin {l r : Row} {L R : List Row} (h : across keys l r = .eq) :
      Moves keys ⟨none, [], l :: L, r :: R⟩ none
        ⟨some 0, r :: R.takeWhile (isSameBand keys r), l :: L, R.dropWhile (isSameBand keys r)⟩
  | pair {index : Nat} {l r : Row} {band L R : List Row} (h : band[index]? = some r) :
      Moves keys ⟨some index, band, l :: L, R⟩ (some (l ++ r)) ⟨some (index + 1), band, l :: L, R⟩
  | again {index : Nat} {l l' first : Row} {band L R : List Row} (hend : band.length < index)
      (h : across keys l' first = .eq) :
      Moves keys ⟨some index, first :: band, l :: l' :: L, R⟩ none
        ⟨some 0, first :: band, l' :: L, R⟩
  | leave {index : Nat} {l first : Row} {band L R : List Row} (hend : band.length < index)
      (h : ∀ l' ∈ L.head?, across keys l' first ≠ .eq) :
      Moves keys ⟨some index, first :: band, l :: L, R⟩ none ⟨none, [], L, R⟩

def State.place (s : State σ τ) (L R : List Row) : Place := ⟨s.bandIndex, s.band, L, R⟩

/-- Where an open join stands: the rows left on both sides and the pairs still to come. -/
structure StandsAt (i : Inputs keys left right) (capacity : Nat) (s : State σ τ)
    (L R rows : List Row) : Prop where
  isOpen : s.isOpen = true
  isAtEnd : s.isAtEnd = false
  capacity : s.capacity = capacity
  left : s.left.IsAt left i.root i.leftKind L
  right : s.right.IsAt right i.root i.rightKind R
  leftKeys : ∀ row ∈ L, Row.HasKey keys.left row
  rightKeys : ∀ row ∈ s.band ++ R, Row.HasKey keys.right row
  emits : Emits keys s.bandIndex s.band L R rows

/-- Where a join stands behind its last pair: its inputs are closed, but not the join itself. -/
structure IsEnded (i : Inputs keys left right) (s : State σ τ) : Prop where
  isOpen : s.isOpen = true
  isAtEnd : s.isAtEnd = true
  left : i.leftClosed s.left.source
  right : i.rightClosed s.right.source

/-- Whether an open join has these pairs still to come. -/
def Ahead (i : Inputs keys left right) (capacity : Nat) (s : State σ τ) (rows : List Row) : Prop :=
  (∃ L R, StandsAt i capacity s L R rows) ∨ (rows = [] ∧ IsEnded i s)

variable {i : Inputs keys left right} {capacity : Nat} {s : State σ τ} {L R rows : List Row}
  {l r first : Row}

theorem gives_onLeft {α : Type} {x : Act (Side σ) α} {a : α} {side : Side σ} {root : TempRoot}
    (hx : x.Gives root s.left a side) : (onLeft x).Gives root s a { s with left := side } :=
  hx.within

theorem gives_onRight {α : Type} {x : Act (Side τ) α} {a : α} {side : Side τ} {root : TempRoot}
    (hx : x.Gives root s.right a side) : (onRight x).Gives root s a { s with right := side } :=
  hx.within

theorem gives_compare_across (i : Inputs keys left right) (hl : Row.HasKey keys.left l)
    (hr : Row.HasKey keys.right r) :
    (Act.require (Row.compareOn? l r keys.left keys.right)).Gives i.root s (across keys l r) s :=
  Act.gives_require (Row.compareOn?_of_hasKey hl hr i.sameLength)

/-- The band takes the right rows whose key is that of its first row. -/
theorem exists_gives_extendBand {band : List Row} {count : Nat} (hband : s.band = first :: band)
    (hfirst : Row.HasKey keys.right first) (hR : ∀ row ∈ R, Row.HasKey keys.right row)
    (hright : s.right.IsAt right i.root i.rightKind R) (hcount : R.length < count) :
    ∃ side : Side τ, side.IsAt right i.root i.rightKind (R.dropWhile (isSameBand keys first)) ∧
      (extendBand keys right count).Gives i.root s ()
        { s with right := side, band := s.band ++ R.takeWhile (isSameBand keys first) } := by
  -- The right rows are taken one by one; the first row of the band stays the same.
  induction R generalizing s band count with
  | nil =>
    obtain ⟨count, rfl⟩ : ∃ n, count = n + 1 := ⟨count - 1, by omega⟩
    refine ⟨s.right, hright, Act.gives_get_bind.mpr ?_⟩
    rw [hright.row?_eq, List.takeWhile_nil, List.append_nil]
    exact Act.gives_pure
  | cons r R ih =>
    rw [List.length_cons] at hcount
    obtain ⟨count, rfl⟩ : ∃ n, count = n + 1 := ⟨count - 1, by omega⟩
    rw [List.forall_mem_cons] at hR
    have hcompare := Row.compareOn?_of_hasKey hR.1 hfirst rfl
    have hhead : s.band.head? = some first := by rw [hband, List.head?_cons]
    by_cases hequal : isSameBand keys first r = true
    · obtain ⟨side₁, hside₁, hadvance⟩ := hright.exists_gives_advance
      let taken : State σ τ := { s with band := s.band ++ [r] }
      let moved : State σ τ := { taken with right := side₁ }
      have hmoved : moved.band = first :: (band ++ [r]) := by
        rw [← List.cons_append, ← hband]
      have hfewer : R.length < count := by omega
      obtain ⟨side, hside, hextend⟩ := ih hmoved hR.2 hside₁ hfewer
      rw [List.dropWhile_cons_of_pos hequal, List.takeWhile_cons_of_pos hequal]
      refine ⟨side, hside, Act.gives_get_bind.mpr ?_⟩
      rw [hright.row?_eq, List.append_cons]
      refine (Act.gives_require hhead).bind ((Act.gives_require hcompare).bind ?_)
      rw [if_pos (beq_iff_eq.mp hequal)]
      have hnext : (onRight (Side.advance right)).Gives i.root taken () moved :=
        gives_onRight hadvance
      exact Act.gives_set.bind (hnext.bind hextend)
    · rw [List.dropWhile_cons_of_neg hequal, List.takeWhile_cons_of_neg hequal, List.append_nil]
      refine ⟨s.right, hright, Act.gives_get_bind.mpr ?_⟩
      rw [hright.row?_eq]
      refine (Act.gives_require hhead).bind ((Act.gives_require hcompare).bind ?_)
      rw [if_neg fun heq => hequal (beq_iff_eq.mpr heq)]
      exact Act.gives_pure

theorem exists_gives_fillBand (hR : ∀ row ∈ r :: R, Row.HasKey keys.right row)
    (hright : s.right.IsAt right i.root i.rightKind (r :: R)) :
    ∃ side : Side τ, side.IsAt right i.root i.rightKind (R.dropWhile (isSameBand keys r)) ∧
      (fillBand keys right).Gives i.root s ()
        { s with right := side, band := r :: R.takeWhile (isSameBand keys r) } := by
  obtain ⟨side₁, hside₁, hadvance⟩ := hright.exists_gives_advance
  let taken : State σ τ := { s with band := [r] }
  let moved : State σ τ := { taken with right := side₁ }
  rw [List.forall_mem_cons] at hR
  have hmoved : moved.band = [r] := rfl
  have hcount : R.length < right.volume moved.right.source + s.right.remaining right + 1 := by
    have hlength := hright.length_le
    rw [List.length_cons] at hlength
    omega
  obtain ⟨side, hside, hextend⟩ := exists_gives_extendBand hmoved hR.1 hR.2 hside₁ hcount
  refine ⟨side, hside, Act.gives_get_bind.mpr ?_⟩
  rw [hright.row?_eq]
  have hnext : (onRight (Side.advance right)).Gives i.root taken () moved := gives_onRight hadvance
  exact Act.gives_set.bind (hnext.bind (Act.gives_get_bind.mpr hextend))

namespace StandsAt

theorem exists_gives_leaveBand {index : Nat} (h : StandsAt i capacity s (l :: L) R rows)
    (hindex : s.bandIndex = some index) (hend : s.band.length ≤ index) :
    ∃ t, StandsAt i capacity t L R rows ∧ Moves keys (s.place (l :: L) R) none (t.place L R) ∧
      (leaveBand keys left).Gives i.root s () t := by
  obtain ⟨isOpen, isAtEnd, capacity', hleft, hright, hL, hR, hemits⟩ := h
  rw [State.place, hindex]
  generalize hband : s.band = wholeBand at hR hend hemits ⊢
  rw [hindex] at hemits
  cases hemits with
  | @pairing _ first _ band _ _ hplace =>
    rw [List.drop_of_length_le hend, List.map_nil, List.nil_append]
    obtain ⟨side, hside, hadvance⟩ := hleft.exists_gives_advance
    let started : State σ τ := { s with bandIndex := none }
    let moved : State σ τ := { started with left := side }
    have hmoves : (onLeft (Side.advance left)).Gives i.root started () moved :=
      gives_onLeft hadvance
    have hhead : s.band.head? = some first := by rw [hband, List.head?_cons]
    have hL' := (List.forall_mem_cons.mp hL).2
    have hfirst := hR first List.mem_cons_self
    have hR' : ∀ row ∈ R, Row.HasKey keys.right row := fun row hrow =>
      hR row (List.mem_append_right _ hrow)
    cases L with
    | nil =>
      let parted : State σ τ := { moved with band := [] }
      have hseeking : Emits keys none [] [] R (mergeRows keys [] R) := .seeking [] R
      rw [mergeRows_nil_left] at hseeking
      rw [bandRows_nil]
      refine ⟨parted, ⟨isOpen, isAtEnd, capacity', hside, hright, hL', hR', hseeking⟩,
        .leave hend nofun, ?_⟩
      refine (Act.gives_modify _).bind (hmoves.bind (Act.gives_get_bind.mpr ?_))
      rw [hside.row?_eq]
      exact Act.gives_set
    | cons l' L =>
      have hcompare := gives_compare_across (s := moved) i (hL' l' List.mem_cons_self) hfirst
      -- A left row with the same key pairs with the band again, from its first row on.
      by_cases hequal : across keys l' first = .eq
      · let same : State σ τ := { moved with bandIndex := some 0 }
        refine ⟨same, ⟨isOpen, isAtEnd, capacity', hside, hright, hL', hband ▸ hR, ?_⟩, ?_, ?_⟩
        · rw [bandRows_of_eq hequal]
          change Emits keys (some 0) s.band _ _ _
          rw [hband]
          exact .pairing L R (Nat.zero_le _)
        · change Moves keys _ none ⟨some 0, s.band, l' :: L, R⟩
          rw [hband]
          exact .again hend hequal
        · refine (Act.gives_modify _).bind (hmoves.bind (Act.gives_get_bind.mpr ?_))
          rw [hside.row?_eq]
          refine (Act.gives_require hhead).bind (hcompare.bind ?_)
          rw [if_pos hequal]
          exact Act.gives_set
      · let parted : State σ τ := { moved with band := [] }
        refine ⟨parted, ⟨isOpen, isAtEnd, capacity', hside, hright, hL', hR', ?_⟩,
          .leave hend fun row hrow => Option.some.inj hrow ▸ hequal, ?_⟩
        · rw [bandRows_of_ne hequal]
          exact .seeking (l' :: L) R
        · refine (Act.gives_modify _).bind (hmoves.bind (Act.gives_get_bind.mpr ?_))
          rw [hside.row?_eq]
          refine (Act.gives_require hhead).bind (hcompare.bind ?_)
          rw [if_neg hequal]
          exact Act.gives_set

/-- Two rows that are compared make a band, or one of them is left behind. -/
theorem exists_gives_seekBand (h : StandsAt i capacity s (l :: L) (r :: R) rows)
    (hindex : s.bandIndex = none) :
    ∃ t L' R', StandsAt i capacity t L' R' rows ∧
      L'.length + R'.length < (l :: L).length + (r :: R).length ∧
      Moves keys (s.place (l :: L) (r :: R)) none (t.place L' R') ∧
      (seekBand keys left right l r).Gives i.root s () t := by
  obtain ⟨isOpen, isAtEnd, capacity', hleft, hright, hL, hR, hemits⟩ := h
  rw [State.place, hindex]
  generalize hband : s.band = band at hR hemits ⊢
  rw [hindex] at hemits
  cases hemits
  rw [List.nil_append] at hR
  have hcompare := gives_compare_across (s := s) i (hL l List.mem_cons_self) (hR r List.mem_cons_self)
  cases hacross : across keys l r with
  | lt =>
    obtain ⟨side, hside, hadvance⟩ := hleft.exists_gives_advance
    let moved : State σ τ := { s with left := side }
    refine ⟨moved, L, r :: R, ⟨isOpen, isAtEnd, capacity', hside, hright,
      (List.forall_mem_cons.mp hL).2, hband.symm ▸ hR, ?_⟩, by simp, ?_, ?_⟩
    · rw [mergeRows_of_lt hacross]
      change Emits keys s.bandIndex s.band _ _ _
      rw [hindex, hband]
      exact .seeking L (r :: R)
    · change Moves keys _ none ⟨s.bandIndex, s.band, L, r :: R⟩
      rw [hindex, hband]
      exact .passLeft hacross
    · rw [hacross] at hcompare
      exact hcompare.bind (gives_onLeft hadvance)
  | gt =>
    obtain ⟨side, hside, hadvance⟩ := hright.exists_gives_advance
    let moved : State σ τ := { s with right := side }
    refine ⟨moved, l :: L, R, ⟨isOpen, isAtEnd, capacity', hleft, hside, hL, ?_, ?_⟩, by simp, ?_,
      ?_⟩
    · exact hband.symm ▸ (List.forall_mem_cons.mp hR).2
    · rw [mergeRows_of_gt hacross]
      change Emits keys s.bandIndex s.band _ _ _
      rw [hindex, hband]
      exact .seeking (l :: L) R
    · change Moves keys _ none ⟨s.bandIndex, s.band, l :: L, R⟩
      rw [hindex, hband]
      exact .passRight hacross
    · rw [hacross] at hcompare
      exact hcompare.bind (gives_onRight hadvance)
  | eq =>
    obtain ⟨side, hside, hfill⟩ := exists_gives_fillBand hR hright
    let filled : State σ τ := { s with right := side, band := r :: R.takeWhile (isSameBand keys r) }
    let begun : State σ τ := { filled with bandIndex := some 0 }
    have hsplit := List.takeWhile_append_dropWhile (p := isSameBand keys r) (l := R)
    refine ⟨begun, l :: L, R.dropWhile (isSameBand keys r),
      ⟨isOpen, isAtEnd, capacity', hleft, hside, hL, ?_, ?_⟩, ?_, .begin hacross, ?_⟩
    · change ∀ row ∈ r :: R.takeWhile (isSameBand keys r) ++ R.dropWhile (isSameBand keys r), _
      rw [List.cons_append, hsplit]
      exact hR
    · rw [mergeRows_of_eq hacross]
      exact .pairing L _ (Nat.zero_le _)
    · have hrest := (List.dropWhile_suffix (l := R) (isSameBand keys r)).length_le
      rw [List.length_cons, List.length_cons]
      omega
    · rw [hacross] at hcompare
      exact hcompare.bind (hfill.bind (Act.gives_modify _))

theorem exists_gives_pair {index : Nat} (h : StandsAt i capacity s L R rows)
    (hindex : s.bandIndex = some index) (hmore : index < s.band.length) :
    ∃ t row others, rows = row :: others ∧ StandsAt i capacity t L R others ∧
      Moves keys (s.place L R) (some row) (t.place L R) ∧
      (step keys left right).Gives i.root s (.row row) t := by
  obtain ⟨isOpen, isAtEnd, capacity', hleft, hright, hL, hR, hemits⟩ := h
  rw [State.place, hindex]
  generalize hband : s.band = wholeBand at hR hmore hemits ⊢
  rw [hindex] at hemits
  cases hemits with
  | @pairing _ first l band L _ hplace =>
    let paired : State σ τ := { s with bandIndex := some (index + 1) }
    rw [List.drop_eq_getElem_cons hmore, List.map_cons, List.cons_append]
    refine ⟨paired, _, _, rfl, ⟨isOpen, isAtEnd, capacity', hleft, hright, hL, hband ▸ hR, ?_⟩, ?_,
      Act.gives_get_bind.mpr ?_⟩
    · change Emits keys (some (index + 1)) s.band _ _ _
      rw [hband]
      exact .pairing L R hmore
    · change Moves keys _ _ ⟨some (index + 1), s.band, l :: L, R⟩
      rw [hband]
      exact .pair (List.getElem?_eq_getElem hmore)
    · have hpaired : s.band[index]? = some (first :: band)[index] := by
        rw [hband, List.getElem?_eq_getElem hmore]
      rw [hindex]
      dsimp only
      rw [hpaired, hleft.row?_eq]
      exact Act.gives_set.bind Act.gives_pure

/-- A step pairs two rows, leaves a row behind, or ends the join where one side has ended. -/
theorem exists_move (h : StandsAt i capacity s L R rows) :
    (rows = [] ∧ (step keys left right).Gives i.root s .done s) ∨
    ∃ t L' R' found rest, rows = found.toList ++ rest ∧ StandsAt i capacity t L' R' rest ∧
      rest.length + L'.length + R'.length < rows.length + L.length + R.length ∧
      Moves keys (s.place L R) found (t.place L' R') ∧
      (step keys left right).Gives i.root s (found.elim .skip .row) t := by
  cases hindex : s.bandIndex with
  | none =>
    -- The join ends between two bands, where one side has no more rows.
    have hemits := h.emits
    generalize hband : s.band = band at hemits
    rw [hindex] at hemits
    cases hemits
    cases L with
    | nil =>
      refine .inl ⟨mergeRows_nil_left keys R, Act.gives_get_bind.mpr ?_⟩
      rw [hindex, h.left.row?_eq]
      exact Act.gives_pure
    | cons l L =>
      cases R with
      | nil =>
        refine .inl ⟨mergeRows_nil_right keys (l :: L), Act.gives_get_bind.mpr ?_⟩
        rw [hindex, h.left.row?_eq, h.right.row?_eq]
        exact Act.gives_pure
      | cons r R =>
        obtain ⟨t, L', R', ht, hlt, hmoves, hseek⟩ := h.exists_gives_seekBand hindex
        refine .inr ⟨t, L', R', none, _, rfl, ht, ?_, hmoves, Act.gives_get_bind.mpr ?_⟩
        · omega
        · rw [hindex, h.left.row?_eq, h.right.row?_eq]
          exact hseek.bind Act.gives_pure
  | some index =>
    -- The left row of a band is left behind only after all its pairs.
    obtain ⟨l, L, rfl⟩ : ∃ l L', L = l :: L' := by
      have hemits := h.emits
      generalize s.band = band at hemits
      rw [hindex] at hemits
      cases hemits
      exact ⟨_, _, rfl⟩
    rcases Nat.lt_or_ge index s.band.length with hmore | hend
    · obtain ⟨t, row, others, rfl, ht, hmoves, hpair⟩ := h.exists_gives_pair hindex hmore
      refine .inr ⟨t, l :: L, R, some row, others, rfl, ht, ?_, hmoves, hpair⟩
      simp only [List.length_cons]
      omega
    · obtain ⟨t, ht, hmoves, hleave⟩ := h.exists_gives_leaveBand hindex hend
      refine .inr ⟨t, L, R, none, _, rfl, ht, ?_, hmoves, Act.gives_get_bind.mpr ?_⟩
      · rw [List.length_cons]
        omega
      · rw [hindex]
        dsimp only
        rw [List.getElem?_eq_none hend]
        exact hleave.bind Act.gives_pure

end StandsAt

def Brings (i : Inputs keys left right) (capacity n : Nat) (s : State σ τ) (rows : List Row) : Prop :=
  ∃ L R, StandsAt i capacity s L R rows ∧ n = rows.length + L.length + R.length

/-- The steps of a join bring its pairs. -/
theorem keeps_step (i : Inputs keys left right) (capacity : Nat) :
    Step.Keeps (step keys left right) i.root (Brings i capacity) := by
  rintro n s rows ⟨L, R, h, rfl⟩
  rcases h.exists_move with ⟨rfl, hdone⟩ | ⟨t, L', R', found, rest, rfl, ht, hless, -, hgives⟩
  · exact .inl ⟨_, s, rfl, hdone, L, R, h, rfl⟩
  · cases found with
    | none => exact .inr (.inl ⟨_, t, hless, hgives, L', R', ht, rfl⟩)
    | some row => exact .inr (.inr ⟨_, t, row, rest, hless, rfl, hgives, L', R', ht, rfl⟩)

/-- The bound that a join goes by covers the pairs still to come. -/
theorem StandsAt.length_le (h : StandsAt i capacity s L R rows) :
    rows.length ≤ Join.pairs left right s := by
  obtain ⟨-, -, -, hleft, hright, -, -, hemits⟩ := h
  have hL := hleft.length_le
  have hR := hright.length_le
  unfold Join.pairs
  generalize hindex : s.bandIndex = bandIndex at hemits
  generalize s.band = band at hemits
  cases hemits with
  | seeking L R =>
    refine Nat.le_trans (length_mergeRows_le keys L R) (Nat.mul_le_mul hL ?_)
    rwa [List.length_nil, Nat.zero_add]
  | @pairing index first l band L R hplace =>
    have hpairs := length_bandRows_le keys first (first :: band) L R
    have hrow : s.left.row?.isSome = true := by rw [hleft.row?_eq]; rfl
    rw [List.length_cons] at hL
    have hmul : L.length * ((first :: band).length + R.length) ≤
        (s.left.remaining left - 1) * ((first :: band).length + s.right.remaining right) :=
      Nat.mul_le_mul (by omega) (by omega)
    simp only [hrow, if_true, List.length_append, List.length_map, List.length_drop]
    omega

theorem exists_gives_finish (h : StandsAt i capacity s L R rows) :
    ∃ t, IsEnded i t ∧ (finish left right).Gives i.root s () t := by
  let ended : State σ τ := { reset s with isAtEnd := true }
  obtain ⟨leftClosed, hleftClosed, hleft⟩ := i.leftCloses ended.left.source h.left.source
  obtain ⟨rightClosed, hrightClosed, hright⟩ := i.rightCloses ended.right.source h.right.source
  let half : State σ τ := { ended with left := { ended.left with source := leftClosed } }
  let closed : State σ τ := { half with right := { half.right with source := rightClosed } }
  have hhalf : (onLeft (Side.onSource left.close)).Gives i.root ended () half :=
    gives_onLeft (Side.gives_onSource hleft)
  have hclosed : (onRight (Side.onSource right.close)).Gives i.root half () closed :=
    gives_onRight (Side.gives_onSource hright)
  exact ⟨closed, ⟨h.isOpen, rfl, hleftClosed, hrightClosed⟩,
    (Act.gives_modify _).bind (hhalf.bind hclosed)⟩

/-- A page takes the pairs it has room for. -/
theorem StandsAt.exists_gives_gather (h : StandsAt i capacity s L R rows) :
    ∃ t L' R', StandsAt i capacity t L' R' (rows.drop capacity) ∧
      (gather .joinOutput (step keys left right) (steps left right s) (.empty capacity)).Gives i.root s
        ⟨capacity, rows.take capacity⟩ t := by
  have hsteps : rows.length + L.length + R.length < steps left right s := by
    have hrows := h.length_le
    have hL := h.left.length_le
    have hR := h.right.length_le
    unfold steps
    omega
  obtain ⟨n, t, ⟨L', R', ht, -⟩, hgather⟩ := PagedQuery.exists_gives_gather (keeps_step i capacity)
    .joinOutput ⟨L, R, h, rfl⟩ hsteps (Draft.batch_empty capacity) (Nat.zero_le _)
  rw [List.length_nil, Nat.sub_zero] at ht hgather
  rw [List.nil_append] at hgather
  exact ⟨t, L', R', ht, hgather⟩

theorem isFull_take (capacity : Nat) (rows : List Row) :
    Batch.isFull ⟨capacity, rows.take capacity⟩ = decide (capacity ≤ rows.length) := by
  change decide (capacity ≤ (rows.take capacity).length) = _
  rw [List.length_take, decide_eq_decide]
  omega

/-- If the page of a call does not get full, the join ends. -/
theorem StandsAt.exists_gives_next (h : StandsAt i capacity s L R rows)
    (hmemory : fitsMemory capacity Batch.rowRoom = true) :
    ∃ t, Ahead i capacity t (rows.drop capacity) ∧
      (next keys left right).Gives i.root s (Batch.nonempty? ⟨capacity, rows.take capacity⟩) t := by
  have hreserve := Draft.reserve_of_fitsMemory hmemory
  obtain ⟨t, L', R', ht, hgather⟩ := h.exists_gives_gather
  have hnext {answer : Option Batch} {u : State σ τ}
      (hrest : (if Batch.isFull ⟨capacity, rows.take capacity⟩ then
          pure (Batch.nonempty? ⟨capacity, rows.take capacity⟩)
        else do
          finish left right
          pure (Batch.nonempty? ⟨capacity, rows.take capacity⟩)).Gives i.root t answer u) :
      (next keys left right).Gives i.root s answer u := by
    refine Act.gives_get_bind.mpr ?_
    rw [h.isOpen, h.isAtEnd, h.capacity]
    exact (Act.gives_ofAnswer hreserve).bind (hgather.bind hrest)
  have hfull := isFull_take capacity rows
  rcases Nat.lt_or_ge rows.length capacity with hfew | hmany
  · obtain ⟨u, hended, hfinish⟩ := exists_gives_finish ht
    refine ⟨u, .inr ⟨List.drop_of_length_le (Nat.le_of_lt hfew), hended⟩, hnext ?_⟩
    rw [hfull, if_neg (by simpa using hfew)]
    exact hfinish.bind Act.gives_pure
  · refine ⟨t, .inl ⟨L', R', ht⟩, hnext ?_⟩
    rw [hfull, if_pos (by simpa using hmany)]
    exact Act.gives_pure

theorem IsEnded.gives_next (h : IsEnded i s) : (next keys left right).Gives i.root s none s := by
  refine Act.gives_get_bind.mpr ?_
  rw [h.isOpen, h.isAtEnd]
  exact Act.gives_pure

namespace Ahead

theorem isOpen (h : Ahead i capacity s rows) : s.isOpen = true := by
  rcases h with ⟨L, R, h⟩ | ⟨-, h⟩
  · exact h.isOpen
  · exact h.isOpen

end Ahead

theorem fills (i : Inputs keys left right) (pageSize numBuffers : Nat)
    (hmemory : fitsMemory capacity Batch.rowRoom = true) :
    (overSorted pageSize numBuffers keys left right).Fills i.root capacity
      fun _ => Ahead i capacity := by
  rintro n s rows (⟨L, R, h⟩ | ⟨rfl, h⟩)
  · obtain ⟨t, ht, hnext⟩ := h.exists_gives_next hmemory
    exact ⟨n, t, ht, hnext⟩
  · rw [List.take_nil, List.drop_nil]
    exact ⟨n, s, .inr ⟨rfl, h⟩, h.gives_next⟩

/-- Once both inputs are open, a join stands before all pairs of their rows, with no band. -/
theorem exists_gives_load (i : Inputs keys left right) {leftBatches rightBatches : List Batch}
    (opened : State σ τ) (hcapacity : opened.capacity = capacity)
    (hleftPages : left.Supplies i.root i.leftKind opened.left.source leftBatches)
    (hrightPages : right.Supplies i.root i.rightKind opened.right.source rightBatches)
    (hleftKeys : ∀ row ∈ leftBatches.flatMap (·.rows), Row.HasKey keys.left row)
    (hrightKeys : ∀ row ∈ rightBatches.flatMap (·.rows), Row.HasKey keys.right row) :
    ∃ t, StandsAt i capacity t (leftBatches.flatMap (·.rows)) (rightBatches.flatMap (·.rows))
        (mergeRows keys (leftBatches.flatMap (·.rows)) (rightBatches.flatMap (·.rows))) ∧
      (t.bandIndex = none ∧ t.band = []) ∧
      (do
        modify reset
        onLeft (Side.load left)
        onRight (Side.load right)
        modify fun s => { s with isAtEnd := false, isOpen := true } : Act (State σ τ) Unit).Gives
          i.root opened () t := by
  let fresh : State σ τ := reset opened
  obtain ⟨leftSide, hleftSide, hloadLeft⟩ := Side.exists_gives_load fresh.left hleftPages rfl
  obtain ⟨rightSide, hrightSide, hloadRight⟩ := Side.exists_gives_load fresh.right hrightPages rfl
  let loading : State σ τ := { fresh with left := leftSide }
  let loaded : State σ τ := { loading with right := rightSide }
  have hloadsLeft : (onLeft (Side.load left)).Gives i.root fresh () loading := gives_onLeft hloadLeft
  have hloadsRight : (onRight (Side.load right)).Gives i.root loading () loaded :=
    gives_onRight hloadRight
  exact ⟨{ loaded with isAtEnd := false, isOpen := true },
    ⟨rfl, rfl, hcapacity, hleftSide, hrightSide, hleftKeys, hrightKeys, .seeking _ _⟩, ⟨rfl, rfl⟩,
    (Act.gives_modify _).bind (hloadsLeft.bind (hloadsRight.bind (Act.gives_modify _)))⟩

/-- Opening both inputs brings a join before all pairs of their rows. -/
theorem exists_gives_openUp (i : Inputs keys left right) {pageSize numBuffers : Nat}
    {leftBatches rightBatches : List Batch} {leftOpen : σ} {rightOpen : τ}
    (hbuffers : 3 ≤ numBuffers)
    (hpage : 1 ≤ pageSize / Schema.rowSize (left.schema ++ right.schema))
    (hclosed : s.isOpen = false) (hleft : left.openUp.Gives i.root s.left.source () leftOpen)
    (hright : right.openUp.Gives i.root s.right.source () rightOpen)
    (hleftPages : left.Supplies i.root i.leftKind leftOpen leftBatches)
    (hrightPages : right.Supplies i.root i.rightKind rightOpen rightBatches)
    (hleftRows : leftBatches.flatMap (·.rows) = L) (hrightRows : rightBatches.flatMap (·.rows) = R)
    (hleftKeys : ∀ row ∈ L, Row.HasKey keys.left row)
    (hrightKeys : ∀ row ∈ R, Row.HasKey keys.right row) :
    ∃ t, (openUp pageSize numBuffers left right).Gives i.root s () t ∧
      StandsAt i (pageSize / Schema.rowSize (left.schema ++ right.schema)) t L R
        (mergeRows keys L R) := by
  subst hleftRows hrightRows
  let capacity := pageSize / Schema.rowSize (left.schema ++ right.schema)
  let sized : State σ τ := { s with capacity }
  let half : State σ τ := { sized with left := { sized.left with source := leftOpen } }
  let opened : State σ τ := { half with right := { half.right with source := rightOpen } }
  have hopenLeft : (onLeft (Side.onSource left.openUp)).Gives i.root sized () half :=
    gives_onLeft (Side.gives_onSource hleft)
  have hopenRight : (onRight (Side.onSource right.openUp)).Gives i.root half () opened :=
    gives_onRight (Side.gives_onSource hright)
  obtain ⟨t, ht, -, hload⟩ := exists_gives_load i opened rfl hleftPages hrightPages
    hleftKeys hrightKeys
  have hvalid : validateBuffers numBuffers = .ok () := if_neg (Nat.not_lt.mpr hbuffers)
  refine ⟨t, Act.gives_get_bind.mpr ?_, ht⟩
  rw [if_neg (by simp [hclosed])]
  refine (Act.gives_ofExcept hvalid).bind ?_
  refine (Act.gives_ofAnswer (Schema.pageCapacity_of_le hpage)).bind ?_
  refine (Act.gives_modify _).bind (hopenLeft.bind (hopenRight.attempt.bind ?_))
  exact hload

end Join
end PagedQuery
