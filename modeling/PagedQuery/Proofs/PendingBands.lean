import PagedQuery.Proofs.PlacedPairs

/-!
# Pending bands

A join can return in the middle of a band and goes on there with its next call. Between two calls its
state tells where it stands in its sorted inputs: which rows it has left behind, that a pending band
is the whole run of right rows with one key, and that the current left row has this key. What was left
behind on one side has met all that matches it on the other.
-/

namespace PagedQuery

section Filling

variable {σ : Type} {step : Act σ Step} {root : TempRoot} {JustPaired : σ → Prop} {page : Draft}

theorem gather_of_full (role : PageRole) (step : Act σ Step) (steps : Nat) (h : page.isFull = true) :
    gather role step steps page = pure page.batch := by
  cases steps with
  | zero => rfl
  | succ steps => rw [gather, if_pos h]

/-- It is a row that makes a page full, and no step follows it. -/
theorem ensures_gather_of_full
    (hrow : ∀ s, step.Ensures root s fun answer t => ∀ row, answer = .ok (.row row) → JustPaired t)
    (role : PageRole) (steps : Nat) (hpage : page.isFull = false) (s : σ) :
    (gather role step steps page).Ensures root s fun answer t =>
      ∀ batch, answer = .ok batch → batch.isFull = true → JustPaired t := by
  have hnotFull (t : σ) : ∀ batch, (.ok page.batch : Except Failure Batch) = .ok batch →
      batch.isFull = true → JustPaired t := by
    intro batch hbatch hfull
    rw [← Except.ok.inj hbatch, Draft.isFull_batch, hpage] at hfull
    cases hfull
  induction steps generalizing page s with
  | zero => exact hnotFull s
  | succ steps ih =>
    rw [gather, if_neg (by simp [hpage])]
    refine (hrow s).bind (fun e t _ batch hbatch => by cases hbatch) fun found t ht => ?_
    cases found with
    | done => exact hnotFull t
    | skip => exact ih hpage t hnotFull
    | row row =>
      dsimp only
      cases page.push? row with
      | none => exact fun batch hbatch => by cases hbatch
      | some page' =>
        dsimp only
        cases hfull : page'.isFull with
        | false =>
          refine ih hfull t fun t batch hbatch hbatch' => ?_
          rw [← Except.ok.inj hbatch, Draft.isFull_batch, hfull] at hbatch'
          cases hbatch'
        | true =>
          rw [gather_of_full role step steps hfull]
          exact fun _ _ _ => ht row rfl

end Filling

namespace Join

variable {keys : Keys} {leftRows rightRows lefts rights given : List Row}

/-- The pairs that a join has brought when it stands at a place, with these left rows behind it. -/
inductive Place.Pending (o : JoinOrder keys leftRows rightRows) (rights leftDone : List Row) :
    Place → List Row → Prop
  | seeking (L R : List Row) : Pending o rights leftDone ⟨none, [], L, R⟩ (o.pairs leftDone rights)
  | pairing {index : Nat} {l : Row} {band : List Row} (L : List Row) {R : List Row}
      (hindex : index ≤ band.length) (hband : o.IsBand band R l) :
      Pending o rights leftDone ⟨some index, band, l :: L, R⟩
        (o.pairs leftDone rights ++ (band.take index).map (l ++ ·))

theorem Place.Pending.start {o : JoinOrder keys leftRows rightRows} {leftDone band R : List Row}
    {l : Row} (L : List Row) (hband : o.IsBand band R l) :
    Place.Pending o rights leftDone ⟨some 0, band, l :: L, R⟩ (o.pairs leftDone rights) := by
  have hpending : Place.Pending o rights leftDone ⟨some 0, band, l :: L, R⟩
      (o.pairs leftDone rights ++ (band.take 0).map (l ++ ·)) := .pairing L (Nat.zero_le _) hband
  rwa [List.take_zero, List.map_nil, List.append_nil] at hpending

/-- Whether a place in two inputs is reached by bringing these pairs. -/
structure Place.IsReached (o : JoinOrder keys leftRows rightRows) (lefts rights given : List Row)
    (p : Place) (leftDone rightDone : List Row) : Prop where
  lefts_eq : lefts = leftDone ++ p.lefts
  rights_eq : rights = rightDone ++ (p.band ++ p.rights)
  /-- The right rows left behind match no left row that is still to come. -/
  passed : ∀ l ∈ p.lefts, ∀ r ∈ rightDone, o.across l r = .gt
  pending : p.Pending o rights leftDone given

/-- Whether these are rows of both inputs of a join, in the order of their keys. -/
structure AreSorted (o : JoinOrder keys leftRows rightRows) (lefts rights : List Row) : Prop where
  left_subset : lefts ⊆ leftRows
  right_subset : rights ⊆ rightRows
  left_sorted : lefts.Pairwise (o.onLeft.le · · = true)
  right_sorted : rights.Pairwise (o.onRight.le · · = true)

theorem areSorted_mergeSort (o : JoinOrder keys leftRows rightRows) :
    AreSorted o (leftRows.mergeSort o.onLeft.le) (rightRows.mergeSort o.onRight.le) where
  left_subset _ := List.mem_mergeSort.mp
  right_subset _ := List.mem_mergeSort.mp
  left_sorted := List.pairwise_mergeSort o.onLeft.orders.trans o.onLeft.orders.total _
  right_sorted := List.pairwise_mergeSort o.onRight.orders.trans o.onRight.orders.total _

theorem AreSorted.mergeRows_eq {o : JoinOrder keys leftRows rightRows} (h : AreSorted o lefts rights) :
    mergeRows keys lefts rights = o.pairs lefts rights :=
  o.mergeRows_eq_pairs h.left_subset h.right_subset h.left_sorted h.right_sorted

namespace Place

variable {o : JoinOrder keys leftRows rightRows}

theorem pairs_concat (o : JoinOrder keys leftRows rightRows) (leftDone : List Row) (l : Row)
    (R : List Row) : o.pairs (leftDone ++ [l]) R = o.pairs leftDone R ++ o.pairsOf R l := by
  rw [JoinOrder.pairs, List.flatMap_append, List.flatMap_singleton]
  rfl

/-- A left row has its pairs in the band, if the right rows before that are passed and those behind it
are not reached. -/
theorem pairsOf_band {l : Row} {passed band R : List Row} (hpassed : ∀ r ∈ passed, o.across l r = .gt)
    (hband : ∀ r ∈ band, o.across l r = .eq) (hbehind : ∀ r ∈ R, o.across l r = .lt) :
    o.pairsOf (passed ++ (band ++ R)) l = band.map (l ++ ·) := by
  have hnone : o.pairsOf passed l = [] := o.pairsOf_eq_nil fun r hr => by
    rw [hpassed r hr]
    decide
  have hnone' : o.pairsOf R l = [] := o.pairsOf_eq_nil fun r hr => by
    rw [hbehind r hr]
    decide
  rw [o.pairsOf_append, o.pairsOf_append, hnone, hnone', o.pairsOf_of_forall hband, List.nil_append,
    List.append_nil]

theorem pairs_done {l : Row} {leftDone passed band R : List Row} {index : Nat}
    (hpassed : ∀ r ∈ passed, o.across l r = .gt) (hband : o.IsBand band R l)
    (hend : band.length ≤ index) :
    o.pairs leftDone (passed ++ (band ++ R)) ++ (band.take index).map (l ++ ·) =
      o.pairs (leftDone ++ [l]) (passed ++ (band ++ R)) := by
  rw [pairs_concat, pairsOf_band hpassed hband.equal hband.behind, List.take_of_length_le hend]

theorem isReached_start (o : JoinOrder keys leftRows rightRows) (lefts rights : List Row) :
    IsReached o lefts rights [] ⟨none, [], lefts, rights⟩ [] [] :=
  ⟨rfl, rfl, fun _ _ => List.forall_mem_nil _, .seeking lefts rights⟩

namespace IsReached

variable {leftDone rightDone L R band : List Row} {l r first : Row} {index : Nat}

theorem left_sorted {p : Place} (hsorted : AreSorted o lefts rights)
    (h : IsReached o lefts rights given p leftDone rightDone) :
    p.lefts.Pairwise (o.onLeft.le · · = true) :=
  (List.pairwise_append.mp (h.lefts_eq ▸ hsorted.left_sorted)).2.1

theorem right_sorted {p : Place} (hsorted : AreSorted o lefts rights)
    (h : IsReached o lefts rights given p leftDone rightDone) :
    (p.band ++ p.rights).Pairwise (o.onRight.le · · = true) :=
  (List.pairwise_append.mp (h.rights_eq ▸ hsorted.right_sorted)).2.1

theorem right_subset {p : Place} (hsorted : AreSorted o lefts rights)
    (h : IsReached o lefts rights given p leftDone rightDone) : p.band ++ p.rights ⊆ rightRows :=
  fun _ hr => hsorted.right_subset (h.rights_eq ▸ List.mem_append_right _ hr)

theorem across_eq {p : Place} (hsorted : AreSorted o lefts rights)
    (h : IsReached o lefts rights given p leftDone rightDone) (hl : l ∈ p.lefts)
    (hr : r ∈ p.band ++ p.rights) : Join.across keys l r = o.across l r :=
  o.across_eq (hsorted.left_subset (h.lefts_eq ▸ List.mem_append_right _ hl))
    (h.right_subset hsorted hr)

theorem passLeft (hsorted : AreSorted o lefts rights)
    (h : IsReached o lefts rights given ⟨none, [], l :: L, r :: R⟩ leftDone rightDone)
    (hlt : Join.across keys l r = .lt) :
    IsReached o lefts rights given ⟨none, [], L, r :: R⟩ (leftDone ++ [l]) rightDone := by
  rw [h.across_eq hsorted List.mem_cons_self List.mem_cons_self] at hlt
  have hright := h.right_sorted hsorted
  obtain ⟨hlefts, hrights, hpassed, hpending⟩ := h
  cases hpending
  have hnone : o.pairsOf rights l = [] := by
    rw [hrights]
    exact pairsOf_band (hpassed l List.mem_cons_self) (List.forall_mem_nil _)
      (o.across_eq_lt_of_pairwise hright hlt)
  refine ⟨hlefts.trans (List.append_cons _ _ _), hrights,
    fun l' hl' => hpassed l' (List.mem_cons_of_mem l hl'), ?_⟩
  have hpairs := pairs_concat o leftDone l rights
  rw [hnone, List.append_nil] at hpairs
  exact hpairs ▸ .seeking L (r :: R)

theorem passRight (hsorted : AreSorted o lefts rights)
    (h : IsReached o lefts rights given ⟨none, [], l :: L, r :: R⟩ leftDone rightDone)
    (hgt : Join.across keys l r = .gt) :
    IsReached o lefts rights given ⟨none, [], l :: L, R⟩ leftDone (rightDone ++ [r]) := by
  rw [h.across_eq hsorted List.mem_cons_self List.mem_cons_self] at hgt
  have hleft := h.left_sorted hsorted
  obtain ⟨hlefts, hrights, hpassed, hpending⟩ := h
  cases hpending
  refine ⟨hlefts, hrights.trans (List.append_cons _ _ _), fun l' hl' => ?_, .seeking (l :: L) R⟩
  refine List.forall_mem_append.mpr ⟨hpassed l' hl', List.forall_mem_singleton.mpr ?_⟩
  exact o.across_eq_gt_of_pairwise hleft hgt l' hl'

/-- Where two rows match, the band of the left one begins. -/
theorem begin (hsorted : AreSorted o lefts rights)
    (h : IsReached o lefts rights given ⟨none, [], l :: L, r :: R⟩ leftDone rightDone)
    (heq : Join.across keys l r = .eq) :
    IsReached o lefts rights given
      ⟨some 0, r :: R.takeWhile (isSameBand keys r), l :: L, R.dropWhile (isSameBand keys r)⟩ leftDone
      rightDone := by
  rw [h.across_eq hsorted List.mem_cons_self List.mem_cons_self] at heq
  have hrows := List.cons_subset.mp (h.right_subset hsorted)
  have hband := o.isBand_takeWhile hrows.1 hrows.2 (h.right_sorted hsorted) heq
  obtain ⟨hlefts, hrights, hpassed, hpending⟩ := h
  cases hpending
  refine ⟨hlefts, ?_, hpassed, .start L hband⟩
  rw [hrights, List.cons_append, List.takeWhile_append_dropWhile]
  rfl

theorem pair (h : IsReached o lefts rights given ⟨some index, band, l :: L, R⟩ leftDone rightDone)
    (hr : band[index]? = some r) :
    IsReached o lefts rights (given ++ [l ++ r]) ⟨some (index + 1), band, l :: L, R⟩ leftDone
      rightDone := by
  obtain ⟨hlefts, hrights, hpassed, hpending⟩ := h
  cases hpending with
  | pairing _ _ hband =>
    have hindex : index < band.length := (List.getElem?_eq_some_iff.mp hr).1
    have htake : (band.take (index + 1)).map (l ++ ·) =
        (band.take index).map (l ++ ·) ++ [l ++ r] := by
      rw [List.take_add_one, hr, Option.toList_some, List.map_append, List.map_singleton]
    refine ⟨hlefts, hrights, hpassed, ?_⟩
    rw [List.append_assoc, ← htake]
    exact .pairing L hindex hband

theorem again {l' : Row} (hsorted : AreSorted o lefts rights)
    (h : IsReached o lefts rights given ⟨some index, first :: band, l :: l' :: L, R⟩ leftDone rightDone)
    (hend : (first :: band).length ≤ index) (heq : Join.across keys l' first = .eq) :
    IsReached o lefts rights given ⟨some 0, first :: band, l' :: L, R⟩ (leftDone ++ [l]) rightDone := by
  rw [h.across_eq hsorted (List.mem_cons_of_mem l List.mem_cons_self) List.mem_cons_self] at heq
  obtain ⟨hlefts, hrights, hpassed, hpending⟩ := h
  cases hpending with
  | pairing _ _ hband =>
    refine ⟨hlefts.trans (List.append_cons _ _ _), hrights,
      fun m hm => hpassed m (List.mem_cons_of_mem l hm), ?_⟩
    rw [hrights, pairs_done (hpassed l List.mem_cons_self) hband hend]
    exact .start L (hband.of_first List.mem_cons_self heq)

/-- A left row that does not have the key of a band leaves all of it behind, as those to come do. -/
theorem leave (hsorted : AreSorted o lefts rights)
    (h : IsReached o lefts rights given ⟨some index, first :: band, l :: L, R⟩ leftDone rightDone)
    (hend : (first :: band).length ≤ index) (hne : ∀ l' ∈ L.head?, Join.across keys l' first ≠ .eq) :
    IsReached o lefts rights given ⟨none, [], L, R⟩ (leftDone ++ [l]) (rightDone ++ first :: band) := by
  have hleft := h.left_sorted hsorted
  have hacross {l' : Row} (hl' : l' ∈ L) : Join.across keys l' first = o.across l' first :=
    h.across_eq hsorted (List.mem_cons_of_mem l hl') List.mem_cons_self
  obtain ⟨hlefts, hrights, hpassed, hpending⟩ := h
  cases hpending with
  | pairing _ _ hband =>
    refine ⟨hlefts.trans (List.append_cons _ _ _), hrights.trans (List.append_assoc _ _ _).symm,
      fun l' hl' => ?_, ?_⟩
    · refine List.forall_mem_append.mpr ⟨hpassed l' (List.mem_cons_of_mem l hl'), fun r hr => ?_⟩
      cases L with
      | nil => cases hl'
      | cons next L =>
        -- It is not before the band, as it follows a row that equals it, so it is behind the band.
        have hother := hne next rfl
        rw [hacross List.mem_cons_self] at hother
        rw [List.pairwise_cons] at hleft
        have hgt := hband.across_eq_gt List.mem_cons_self (hleft.1 next List.mem_cons_self) hother r hr
        exact o.across_eq_gt_of_pairwise hleft.2 hgt l' hl'
    · rw [hrights, pairs_done (hpassed l List.mem_cons_self) hband hend]
      exact .seeking L R

/-- Every move of a join brings what is due at the place that it leads to. -/
theorem move {p p' : Place} {found : Option Row} (hsorted : AreSorted o lefts rights)
    (h : IsReached o lefts rights given p leftDone rightDone) (hmoves : Moves keys p found p') :
    ∃ leftDone rightDone,
      IsReached o lefts rights (given ++ found.toList) p' leftDone rightDone := by
  cases hmoves with
  | pair hr => exact ⟨_, _, h.pair hr⟩
  | passLeft hlt => exact ⟨_, _, by simpa using h.passLeft hsorted hlt⟩
  | passRight hgt => exact ⟨_, _, by simpa using h.passRight hsorted hgt⟩
  | begin heq => exact ⟨_, _, by simpa using h.begin hsorted heq⟩
  | again hend heq => exact ⟨_, _, by simpa using h.again hsorted hend heq⟩
  | leave hend hne => exact ⟨_, _, by simpa using h.leave hsorted hend hne⟩

end IsReached

end Place

section Standing

variable {σ τ : Type} {left : Cursor σ} {right : Cursor τ} {root : TempRoot}
  {o : JoinOrder keys leftRows rightRows} {capacity : Nat} {s : State σ τ}
  {hkeys : keys.left.length = keys.right.length}

/-- Whether an open join has brought these pairs of its sorted inputs by now, and has the others still
to come. -/
def HasBrought (i : Inputs keys left right) (o : JoinOrder keys leftRows rightRows) (capacity : Nat)
    (lefts rights given : List Row) (s : State σ τ) : Prop :=
  ∃ L R rest leftDone rightDone, StandsAt i capacity s L R rest ∧
    o.pairs lefts rights = given ++ rest ∧
    (s.place L R).IsReached o lefts rights given leftDone rightDone

/-- Steps of a join bring what is due at the place that it stands at. -/
theorem HasBrought.ensures_step (hsorted : AreSorted o lefts rights)
    (hs : HasBrought (quietInputs left right root hkeys) o capacity lefts rights given s) :
    (step keys left right).Ensures root s fun answer t =>
      HasBrought (quietInputs left right root hkeys) o capacity lefts rights
        (given ++ Step.rows answer) t := by
  obtain ⟨L, R, rest, leftDone, rightDone, hstands, hall, hreached⟩ := id hs
  rw [step_congr left.readsAs_quiet right.readsAs_quiet]
  rcases hstands.exists_move with ⟨-, hdone⟩ | ⟨t, L', R', found, rest', rfl, ht, -, hmoves, hgives⟩
  · refine Act.Ensures.mono hdone ?_
    rintro _ _ ⟨rfl, rfl⟩
    have hnone : Step.rows (.ok .done) = [] := rfl
    rwa [hnone, List.append_nil]
  · obtain ⟨leftDone', rightDone', hreached'⟩ := hreached.move hsorted hmoves
    refine Act.Ensures.mono hgives ?_
    rintro _ _ ⟨rfl, rfl⟩
    have hrows : Step.rows (.ok (found.elim .skip .row)) = found.toList := by cases found <;> rfl
    rw [hrows]
    exact ⟨L', R', rest', leftDone', rightDone', ht, hall.trans (List.append_assoc _ _ _).symm,
      hreached'⟩

/-- A step that brings a pair has one of its band behind it. -/
theorem ensures_step_bandIndex (keys : Keys) (left : Cursor σ) (right : Cursor τ) (root : TempRoot)
    (s : State σ τ) : (step keys left right).Ensures root s fun answer t =>
      ∀ row, answer = .ok (.row row) → t.bandIndex ≠ some 0 := by
  have hskip {x : Act (State σ τ) Unit} : (do x; pure .skip : Act (State σ τ) Step).Ensures root s
      fun answer t => ∀ row, answer = .ok (.row row) → t.bandIndex ≠ some 0 := by
    have hx : x.Ensures root s fun _ _ => True := trivial
    exact hx.bind (fun _ _ _ row h => by cases h) fun _ _ _ row h => by cases h
  apply Act.ensures_get_bind.mpr
  cases s.bandIndex with
  | none =>
    dsimp only
    cases s.left.row? with
    | none => exact fun row h => by cases h
    | some l =>
      cases s.right.row? with
      | none => exact fun row h => by cases h
      | some r => exact hskip
  | some index =>
    dsimp only
    cases s.band[index]? with
    | none => exact hskip
    | some paired =>
      cases s.left.row? with
      | none => exact fun row h => by cases h
      | some l =>
        have hbehind : some (index + 1) ≠ some 0 := by simp
        exact Act.ensures_set_bind.mpr (Act.ensures_pure.mpr fun _ _ => hbehind)

/-- A call that does not end the output brings what it gives, and leaves off behind a pair. -/
theorem HasBrought.ensures_next (hsorted : AreSorted o lefts rights) (hc : 0 < capacity)
    (hs : HasBrought (quietInputs left right root hkeys) o capacity lefts rights given s)
    (hindex : s.bandIndex ≠ some 0) :
    (next keys left right).Ensures root s fun answer t => t.isAtEnd = false →
      HasBrought (quietInputs left right root hkeys) o capacity lefts rights
        (given ++ givenRows answer) t ∧ t.bandIndex ≠ some 0 := by
  obtain ⟨L, R, rest, leftDone, rightDone, hstands, -, -⟩ := id hs
  apply Act.ensures_get_bind.mpr
  simp only [hstands.isOpen, hstands.isAtEnd, hstands.capacity]
  cases hreserve : Draft.reserve capacity with
  | error f =>
    have hsame : HasBrought (quietInputs left right root hkeys) o capacity lefts rights (given ++ [])
        s := by
      rwa [List.append_nil]
    exact fun _ => ⟨hsame, hindex⟩
  | ok page =>
    obtain rfl := Draft.eq_empty_of_reserve hreserve
    obtain ⟨t, L', R', -, hgather⟩ := exists_gives_gather_of_quiet hstands
    have hempty : HasBrought (quietInputs left right root hkeys) o capacity lefts rights
        (given ++ (Draft.empty capacity).batch.rows) s := by
      simpa [Batch.empty] using hs
    have hroom : (Draft.empty capacity).isFull = false := beq_eq_false_iff_ne.mpr (by
      change capacity ≠ 0
      omega)
    -- Gathering keeps the account, and a page that it fills ends with a pair, not with a move.
    obtain ⟨ht, hbatch⟩ := hgather.ensured
      (gather_accounts (fun rows s h => h.ensures_step hsorted) .joinOutput _ given _ hempty)
    have hpaired := hgather.ensured
      (ensures_gather_of_full (ensures_step_bandIndex keys left right root) .joinOutput _ hroom s)
    rw [← hbatch _ rfl] at ht
    refine hgather.bind_ensures ?_
    split
    · next hfull =>
      refine Act.ensures_pure.mpr fun _ => ⟨?_, hpaired _ rfl hfull⟩
      rwa [givenRows_nonempty?]
    · refine (ensures_finish left right root t).bind (fun _ u hu hend => ?_) fun _ u hu => ?_
      · cases hu.symm.trans hend
      · exact Act.ensures_pure.mpr fun hend => by cases hu.symm.trans hend

/-- As long as the output has not ended, the calls have given all pairs that were brought. -/
theorem hasBrought_nth (pageSize numBuffers : Nat) (hsorted : AreSorted o lefts rights)
    (hc : 0 < capacity)
    (hs : HasBrought (quietInputs left right root hkeys) o capacity lefts rights [] s)
    (hindex : s.bandIndex ≠ some 0) (n : Nat)
    (hend : ((overSorted pageSize numBuffers keys left right).nth root s n).isAtEnd = false) :
    HasBrought (quietInputs left right root hkeys) o capacity lefts rights
        ((overSorted pageSize numBuffers keys left right).given root s n)
        ((overSorted pageSize numBuffers keys left right).nth root s n) ∧
      ((overSorted pageSize numBuffers keys left right).nth root s n).bandIndex ≠ some 0 := by
  induction n with
  | zero => exact ⟨hs, hindex⟩
  | succ n ih =>
    rw [Cursor.nth_succ] at hend ⊢
    rw [Cursor.given_succ]
    cases hended : ((overSorted pageSize numBuffers keys left right).nth root s n).isAtEnd with
    | true =>
      have hstays : (next keys left right).Ensures root _ fun _ t => t = _ :=
        (ensures_next_of_ended keys left right hended).2.mono fun _ _ h => h.1
      have hstate : ((overSorted pageSize numBuffers keys left right).next.run root
        ((overSorted pageSize numBuffers keys left right).nth root s n)).state = _ := hstays
      rw [hstate, hended] at hend
      cases hend
    | false =>
      obtain ⟨hn, hindex'⟩ := ih hended
      exact hn.ensures_next hsorted hc hindex' hend

end Standing

/-- Whether right rows are the whole run of those whose key is that of the first of them. -/
structure IsWholeBand (keys : Keys) (before band behind : List Row) (first : Row) : Prop where
  head : band.head? = some first
  before : ∀ r ∈ before, Row.compareOn? r first keys.right keys.right = some .lt
  equal : ∀ r ∈ band, Row.compareOn? r first keys.right keys.right = some .eq
  behind : ∀ r ∈ behind, Row.compareOn? r first keys.right keys.right = some .gt

/-- What a join that stands between two calls has given: the pairs of the left rows behind it, and with
a pending band those of the current left row with the front of the band, which is not empty. -/
inductive HasPending (keys : Keys) (rights leftDone rightDone rightRest : List Row) :
    Option Nat → List Row → Option Row → List Row → Prop
  | none {l? : Option Row} {given : List Row}
      (hgiven : nestedLoopJoin? keys.left keys.right leftDone rights = some given) :
      HasPending keys rights leftDone rightDone rightRest none [] l? given
  | some {index : Nat} {band done : List Row} {l first : Row} (hpos : 1 ≤ index)
      (hle : index ≤ band.length) (hband : IsWholeBand keys rightDone band rightRest first)
      (hmatch : Row.compareOn? l first keys.left keys.right = some .eq)
      (hdone : nestedLoopJoin? keys.left keys.right leftDone rights = some done) :
      HasPending keys rights leftDone rightDone rightRest (some index) band (some l)
        (done ++ (band.take index).map (l ++ ·))

/-- Where a join stands in its sorted inputs, having given some pairs. -/
structure StandsBetween {σ τ : Type} (keys : Keys) (lefts rights given : List Row) (s : State σ τ)
    (leftDone leftRest rightDone rightRest : List Row) : Prop where
  lefts_eq : lefts = leftDone ++ leftRest
  rights_eq : rights = rightDone ++ (s.band ++ rightRest)
  leftRow : s.left.row? = leftRest.head?
  rightRow : s.right.row? = rightRest.head?
  leftIndex : ∀ page, s.left.page = some page → s.left.index < page.length
  rightIndex : ∀ page, s.right.page = some page → s.right.index < page.length
  /-- The right rows left behind match no left row that is still to come. -/
  passed : ∀ l ∈ leftRest, ∀ r ∈ rightDone,
    Row.compareOn? l r keys.left keys.right = some .gt
  pending : HasPending keys rights leftDone rightDone rightRest s.bandIndex s.band s.left.row? given

section Between

variable {σ τ : Type} {left : Cursor σ} {right : Cursor τ} {o : JoinOrder keys leftRows rightRows}
  {capacity : Nat} {s : State σ τ}

/-- A band is the whole run of its key between right rows left behind and those to come. -/
theorem isWholeBand_of_isBand {l first : Row} {before band behind : List Row}
    (hright : before ++ (first :: band ++ behind) ⊆ rightRows)
    (hpassed : ∀ r ∈ before, o.across l r = .gt) (hband : o.IsBand (first :: band) behind l) :
    IsWholeBand keys before (first :: band) behind first := by
  have htrans := o.transCmp
  rw [List.append_subset, List.append_subset] at hright
  obtain ⟨hbefore, hwhole, hbehind⟩ := hright
  have hequal : o.compare (Row.keyOf keys.left l) (Row.keyOf keys.right first) = .eq :=
    hband.equal first List.mem_cons_self
  have hcompare {r : Row} (hr : r ∈ rightRows) :
      Row.compareOn? r first keys.right keys.right =
        some (o.across l r).swap := by
    rw [o.compareOn?_right hr (hwhole List.mem_cons_self), ← Std.TransCmp.congr_right hequal]
    exact congrArg some Std.OrientedCmp.eq_swap
  refine ⟨rfl, fun r hr => ?_, fun r hr => ?_, fun r hr => ?_⟩
  · rw [hcompare (hbefore hr), hpassed r hr]
    rfl
  · rw [hcompare (hwhole hr), hband.equal r hr]
    rfl
  · rw [hcompare (hbehind hr), hband.behind r hr]
    rfl

theorem HasBrought.exists_standsBetween {i : Inputs keys left right} (hsorted : AreSorted o lefts rights)
    (hs : HasBrought i o capacity lefts rights given s) (hindex : s.bandIndex ≠ some 0) :
    ∃ leftDone leftRest rightDone rightRest,
      StandsBetween keys lefts rights given s leftDone leftRest rightDone rightRest := by
  obtain ⟨L, R, rest, leftDone, rightDone, hstands, -, hlefts, hrights, hpassed, hpending⟩ := hs
  have hleftRows : leftDone ++ L ⊆ leftRows := hlefts ▸ hsorted.left_subset
  have hrightRows : rightDone ++ (s.band ++ R) ⊆ rightRows := hrights ▸ hsorted.right_subset
  rw [List.append_subset] at hleftRows
  have hgiven : nestedLoopJoin? keys.left keys.right leftDone rights = some (o.pairs leftDone rights) :=
    o.nestedLoopJoin?_eq hleftRows.1 hsorted.right_subset
  refine ⟨leftDone, L, rightDone, R, hlefts, hrights, hstands.left.row?_eq, hstands.right.row?_eq,
    fun _ => hstands.left.index_lt, fun _ => hstands.right.index_lt, fun l hl r hr => ?_, ?_⟩
  · rw [o.compareOn?_across (hleftRows.2 hl) (hrightRows (List.mem_append_left _ hr))]
    exact congrArg some (hpassed l hl r hr)
  · rw [hstands.left.row?_eq]
    dsimp only [State.place] at hpending hpassed
    generalize hbandIndex : s.bandIndex = bandIndex at hpending hindex
    generalize s.band = band at hpending hrightRows
    cases hpending with
    | seeking => exact .none hgiven
    | @pairing index l band L R hle hband =>
      obtain ⟨first, band, rfl⟩ := List.exists_cons_of_ne_nil hband.nonempty
      have hpos : 1 ≤ index := Nat.one_le_iff_ne_zero.mpr fun hzero => hindex (congrArg some hzero)
      have hl : l ∈ leftRows := hleftRows.2 List.mem_cons_self
      have hfirst : first ∈ rightRows := hrightRows
        (List.mem_append_right _ (List.mem_append_left _ List.mem_cons_self))
      refine .some hpos hle (isWholeBand_of_isBand hrightRows (hpassed l List.mem_cons_self) hband) ?_
        hgiven
      rw [o.compareOn?_across hl hfirst]
      exact congrArg some (hband.equal first List.mem_cons_self)

end Between

section Calls

variable {σ τ : Type}

/-- Between two calls of an open join, a pending band is the whole run of right rows with the key of the
current left row, and at least one of them has been paired with it. All pairs of the rows left behind
have been given. So the next call finds the first row of each band and the left row to pair, and fills
its page with the pairs that follow. -/
theorem band_is_whole_between_calls (conditions : List JoinCondition) (pageSize numBuffers : Nat)
    (keys : Keys) (left : Cursor σ) (right : Cursor τ) (root : TempRoot)
    (leftBatches rightBatches : List Batch)
    (hresolved : Join.keys conditions left.schema right.schema = .ok (keys.left, keys.right))
    {closed s : State (MergeSort.State σ) (MergeSort.State τ)} (hclosed : closed.isOpen = false)
    (hleft : closed.left.source.isOpen = false ∧ closed.left.source.work.runs = [])
    (hright : closed.right.source.isOpen = false ∧ closed.right.source.work.runs = [])
    (hleftRows : left.OpensAndDelivers root closed.left.source.child leftBatches)
    (hrightRows : right.OpensAndDelivers root closed.right.source.child rightBatches)
    (hmatchable : Row.AreMatchable keys.left keys.right (leftBatches.flatMap (·.rows))
      (rightBatches.flatMap (·.rows)))
    (hopen : (cursor pageSize numBuffers keys left right).openUp.Gives root closed () s) (n : Nat) :
    let join := cursor pageSize numBuffers keys left right
    let leftSort := MergeSort.cursor (sortSpec pageSize numBuffers "left" keys.left) left
    let rightSort := MergeSort.cursor (sortSpec pageSize numBuffers "right" keys.right) right
    let lefts := (leftBatches.flatMap (·.rows)).mergeSort (Row.precedesOn keys.left false)
    let rights := (rightBatches.flatMap (·.rows)).mergeSort (Row.precedesOn keys.right false)
    let u := join.nth root s n
    u.isAtEnd = false →
      (∃ leftDone leftRest rightDone rightRest,
        StandsBetween keys lefts rights (join.given root s n) u leftDone leftRest rightDone
          rightRest) ∧
      ∃ rest t, nestedLoopJoin? keys.left keys.right lefts rights = some (join.given root s n ++ rest) ∧
        (gather .joinOutput (step keys leftSort rightSort) (steps leftSort rightSort u)
          (.empty u.capacity)).Gives root u ⟨u.capacity, rest.take u.capacity⟩ t := by
  intro join leftSort rightSort lefts rights u hend
  obtain ⟨hkeys, -, -⟩ := keys_spec hresolved
  obtain ⟨leftBatches', rightBatches', hleftDelivers, hrightDelivers, hstands⟩ :=
    exists_delivers_of_gives pageSize numBuffers keys left right root hkeys hclosed hleft hright hopen
  obtain rfl := hleftRows.unique hleftDelivers
  obtain rfl := hrightRows.unique hrightDelivers
  obtain ⟨o⟩ := JoinOrder.nonempty_of_areMatchable hmatchable hkeys
  obtain ⟨capacity, hc, hs, hindex, hband⟩ := hstands o
  have hlefts : lefts = (leftBatches.flatMap (·.rows)).mergeSort o.onLeft.le :=
    o.onLeft.sortBy_eq (List.Subset.refl _)
  have hrights : rights = (rightBatches.flatMap (·.rows)).mergeSort o.onRight.le :=
    o.onRight.sortBy_eq (List.Subset.refl _)
  have hsorted := areSorted_mergeSort o
  rw [← hlefts, ← hrights] at hs hsorted
  have hall := hsorted.mergeRows_eq
  have hstart : (s.place lefts rights).IsReached o lefts rights [] [] [] := by
    rw [State.place, hindex, hband]
    exact Place.isReached_start o lefts rights
  obtain ⟨hbrought, hindex'⟩ := hasBrought_nth pageSize numBuffers hsorted hc
    ⟨lefts, rights, _, [], [], hs, hall.symm, hstart⟩ (by simp [hindex]) n hend
  refine ⟨hbrought.exists_standsBetween hsorted hindex', ?_⟩
  obtain ⟨L, R, rest, -, -, hu, hrest, -⟩ := hbrought
  obtain ⟨t, -, -, -, hgather⟩ := exists_gives_gather_of_quiet hu
  rw [← hu.capacity] at hgather
  refine ⟨rest, t, ?_, hgather⟩
  exact (o.nestedLoopJoin?_eq hsorted.left_subset hsorted.right_subset).trans (congrArg some hrest)

/-- Behind two of six pages, the second of three right rows with the key 1 was the last to be paired. -/
theorem band_is_whole_between_calls_equalKeys :
    let join := onFirst 3 (childOf "l" leftPages) (childOf "r" rightPages)
    let leftSort := MergeSort.cursor (sortSpec 16 3 "left" [0]) (childOf "l" leftPages)
    let rightSort := MergeSort.cursor (sortSpec 16 3 "right" [0]) (childOf "r" rightPages)
    let u := join.nth ⟨true⟩ (join.openUp.run ⟨true⟩ join.start).state 2
    u.bandIndex = some 2 ∧
      (∃ leftDone leftRest rightDone rightRest, StandsBetween ⟨[0], [0]⟩
        ((leftPages.flatMap (·.rows)).mergeSort (Row.precedesOn [0] false))
        ((rightPages.flatMap (·.rows)).mergeSort (Row.precedesOn [0] false))
        (join.given ⟨true⟩ (join.openUp.run ⟨true⟩ join.start).state 2) u leftDone leftRest rightDone
        rightRest) ∧
      ∃ rest t, nestedLoopJoin? [0] [0]
          ((leftPages.flatMap (·.rows)).mergeSort (Row.precedesOn [0] false))
          ((rightPages.flatMap (·.rows)).mergeSort (Row.precedesOn [0] false)) =
            some (join.given ⟨true⟩ (join.openUp.run ⟨true⟩ join.start).state 2 ++ rest) ∧
        (gather .joinOutput (step ⟨[0], [0]⟩ leftSort rightSort) (steps leftSort rightSort u)
          (.empty u.capacity)).Gives ⟨true⟩ u ⟨u.capacity, rest.take u.capacity⟩ t := by
  obtain ⟨leftOpen, leftEnded, _, hleftOpen, hleftRows, -⟩ := provides_leftPages
  obtain ⟨rightOpen, rightEnded, _, hrightOpen, hrightRows, -⟩ := provides_rightPages
  refine ⟨by decide +kernel, ?_⟩
  exact band_is_whole_between_calls [⟨"c0", "c0"⟩] 16 3 ⟨[0], [0]⟩ (childOf "l" leftPages)
    (childOf "r" rightPages) ⟨true⟩ leftPages rightPages (by decide) rfl ⟨rfl, rfl⟩ ⟨rfl, rfl⟩
    ⟨leftOpen, leftEnded, hleftOpen, hleftRows⟩ ⟨rightOpen, rightEnded, hrightOpen, hrightRows⟩
    ⟨by decide, by decide, by decide⟩ ⟨by decide +kernel, rfl⟩ 2 (by decide +kernel)

end Calls

end Join

end PagedQuery
