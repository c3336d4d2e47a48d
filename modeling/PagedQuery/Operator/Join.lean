import PagedQuery.Operator.MergeSort
import PagedQuery.Cursor.Gather

/-!
# Sort-merge join

Both inputs are sorted on their keys and read side by side. Right rows with one key are kept as a
band, so that every left row with that key meets all of them, also when the band spans several
pages. The output takes the left rows in their sorted order, and for each the right rows of its
band in theirs.
-/

namespace PagedQuery

/-- An equality between a column of the left input and one of the right input, by name. -/
structure JoinCondition where
  left : String
  right : String
  deriving DecidableEq, Repr

namespace Join

def resolve (schema : Schema) (name : String) : Except Error Nat :=
  match schema.position? name with
  | some position => .ok position
  | none => .error (.joinAttributeNotFound name schema)

/-- The positions of the key on both sides, condition by condition. -/
def resolveAll (left right : Schema) : List JoinCondition → Except Error (List Nat × List Nat)
  | [] => .ok ([], [])
  | condition :: conditions => do
    let l ← resolve left condition.left
    let r ← resolve right condition.right
    let (ls, rs) ← resolveAll left right conditions
    pure (l :: ls, r :: rs)

/-- The keys of a join, which needs at least one condition. -/
def keys (conditions : List JoinCondition) (left right : Schema) :
    Except Error (List Nat × List Nat) :=
  if conditions.isEmpty then .error .noJoinCondition else resolveAll left right conditions

/-- One sorted input and the place reached in it. -/
structure Side (σ : Type) where
  source : σ
  page : Option Batch
  index : Nat

namespace Side

variable {σ : Type}

/-- The row at the place reached. -/
def row? (s : Side σ) : Option Row := s.page.bind (·.rows[s.index]?)

/-- Back to where no page is being read. -/
def reset (s : Side σ) : Side σ := { s with page := none, index := 0 }

/-- A bound on the rows from the place reached on. -/
def remaining (c : Cursor σ) (s : Side σ) : Nat :=
  s.page.elim 0 (·.length - s.index) + c.volume s.source

def onSource {α : Type} (x : Act σ α) : Act (Side σ) α :=
  Act.within (·.source) (fun s source => { s with source }) x

def load (c : Cursor σ) : Act (Side σ) Unit := do
  let page ← onSource c.next
  modify fun s => { s with page }

/-- Fetches pages until the place reached holds a row or the input ends. -/
def settle (c : Cursor σ) : Nat → Act (Side σ) Unit
  | 0 => pure ()
  | steps + 1 => do
    let s ← get
    match s.page with
    | none => pure ()
    | some page =>
      unless s.index < page.length do
        let page ← onSource c.next
        modify fun s => { s with page, index := 0 }
        settle c steps

def advance (c : Cursor σ) : Act (Side σ) Unit := do
  modify fun s => { s with index := s.index + 1 }
  settle c (c.volume (← get).source + 2)

theorem remaining_pos (c : Cursor σ) {s : Side σ} {row : Row} (h : s.row? = some row) :
    0 < s.remaining c := by
  rcases s with ⟨source, _ | page, index⟩
  · cases h
  · have hindex : index < page.length := (List.getElem?_eq_some_iff.mp h).1
    simp only [remaining, Option.elim]
    omega

theorem ensures_settle (c : Cursor σ) (steps : Nat) (root : TempRoot) (s : Side σ) :
    (settle c steps).Ensures root s fun _ t => remaining c t ≤ remaining c s := by
  induction steps generalizing s with
  | zero => exact Nat.le_refl _
  | succ steps ih =>
    rw [settle, Act.ensures_get_bind]
    rcases s with ⟨source, _ | page, index⟩
    · exact Nat.le_refl _
    · dsimp only
      split
      · exact Nat.le_refl _
      · refine Act.Ensures.within_bind (c.volume_next root source) ?_ ?_
        · intro e t hcost
          simp only [pageCost, remaining] at hcost ⊢
          omega
        · intro found t hcost
          rw [Act.ensures_modify_bind]
          refine (ih _).mono fun _ u hu => Nat.le_trans hu ?_
          cases found with
          | none =>
            simp only [pageCost, remaining, Option.elim] at hcost ⊢
            omega
          | some batch =>
            simp only [pageCost, remaining, Option.elim] at hcost ⊢
            omega

/-- Moving on from a row leaves less. -/
theorem ensures_advance (c : Cursor σ) (root : TempRoot) (s : Side σ) :
    (advance c).Ensures root s fun _ t =>
      remaining c t + (if s.row?.isSome then 1 else 0) ≤ remaining c s := by
  rw [advance, Act.ensures_modify_bind, Act.ensures_get_bind]
  refine (ensures_settle c _ root _).mono fun _ t ht => ?_
  rcases s with ⟨source, _ | page, index⟩
  · exact ht
  · change remaining c t ≤ (page.length - (index + 1)) + c.volume source at ht
    change remaining c t + (if (page.rows[index]?).isSome then 1 else 0) ≤
      (page.length - index) + c.volume source
    cases hrow : page.rows[index]? with
    | none => simpa using Nat.le_trans ht (by omega)
    | some row =>
      have hindex : index < page.length := (List.getElem?_eq_some_iff.mp hrow).1
      simp only [Option.isSome_some, if_true]
      omega

end Side

structure State (σ τ : Type) where
  left : Side σ
  right : Side τ
  isOpen : Bool
  capacity : Nat
  /-- The right rows of the current band, all with one key. -/
  band : List Row
  /-- The band's row to pair next with the left row; none while equal keys are looked for. -/
  bandIndex : Option Nat
  isAtEnd : Bool

variable {σ τ : Type}

def onLeft {α : Type} (x : Act (Side σ) α) : Act (State σ τ) α :=
  Act.within (·.left) (fun s left => { s with left }) x

def onRight {α : Type} (x : Act (Side τ) α) : Act (State σ τ) α :=
  Act.within (·.right) (fun s right => { s with right }) x

/-- Forgets the places reached and the band. -/
def reset (s : State σ τ) : State σ τ :=
  { s with left := s.left.reset, right := s.right.reset, band := [], bandIndex := none }

/-- How both sides are compared. -/
structure Keys where
  left : List Nat
  right : List Nat
  deriving DecidableEq, Repr

/-- Moves right rows into the band as long as their key is that of its first row. -/
def extendBand (keys : Keys) (right : Cursor τ) : Nat → Act (State σ τ) Unit
  | 0 => pure ()
  | steps + 1 => do
    let s ← get
    match s.right.row? with
    | none => pure ()
    | some row =>
      let first ← Act.require s.band.head?
      let order ← Act.require (Row.compareOn? row first keys.right keys.right)
      if order = .eq then
        set { s with band := s.band ++ [row] }
        onRight (Side.advance right)
        extendBand keys right steps

/-- Moves the current right row and those with an equal key into the band. -/
def fillBand (keys : Keys) (right : Cursor τ) : Act (State σ τ) Unit := do
  let s ← get
  match s.right.row? with
  | none => Act.fail .noBandStart
  | some first =>
    set { s with band := [first] }
    onRight (Side.advance right)
    extendBand keys right (right.volume (← get).right.source + s.right.remaining right + 1)

/-- Moves on to the next left row once the band is done with; it may share the band's key. -/
def leaveBand (keys : Keys) (left : Cursor σ) : Act (State σ τ) Unit := do
  modify fun s => { s with bandIndex := none }
  onLeft (Side.advance left)
  let s ← get
  match s.left.row? with
  | none => set { s with band := [] }
  | some row =>
    let first ← Act.require s.band.head?
    let order ← Act.require (Row.compareOn? row first keys.left keys.right)
    if order = .eq then
      set { s with bandIndex := some 0 }
    else
      set { s with band := [] }

/-- Moves on on the side with the lesser key, or makes a band of equal keys. -/
def seekBand (keys : Keys) (left : Cursor σ) (right : Cursor τ) (l r : Row) :
    Act (State σ τ) Unit := do
  match ← Act.require (Row.compareOn? l r keys.left keys.right) with
  | .lt => onLeft (Side.advance left)
  | .gt => onRight (Side.advance right)
  | .eq =>
    fillBand keys right
    modify fun s => { s with bandIndex := some 0 }

/-- Pairs the left row with the next row of the band, or moves on. -/
def step (keys : Keys) (left : Cursor σ) (right : Cursor τ) : Act (State σ τ) Step := do
  let s ← get
  match s.bandIndex with
  | some index =>
    match s.band[index]? with
    | some paired =>
      match s.left.row? with
      | none => Act.fail .noBandRow
      | some row =>
        set { s with bandIndex := some (index + 1) }
        pure (.row (row ++ paired))
    | none =>
      leaveBand keys left
      pure .skip
  | none =>
    match s.left.row?, s.right.row? with
    | some l, some r =>
      seekBand keys left right l r
      pure .skip
    | _, _ => pure .done

/-- A bound on the pairs still to come: each left row can meet the band and all right rows, the
current one only what is left of the band. -/
def pairs (left : Cursor σ) (right : Cursor τ) (s : State σ τ) : Nat :=
  let l := s.left.remaining left
  let r := s.right.remaining right
  match s.bandIndex with
  | none => l * (s.band.length + r)
  | some index =>
    (if s.left.row?.isSome then l - 1 else l) * (s.band.length + r) + (s.band.length - index)

/-- A bound on the steps still to come: the pairs, and moves on either side. -/
def steps (left : Cursor σ) (right : Cursor τ) (s : State σ τ) : Nat :=
  pairs left right s + s.left.remaining left + s.right.remaining right + 3

theorem ensures_extendBand (keys : Keys) (right : Cursor τ) (count : Nat) (root : TempRoot)
    (s : State σ τ) :
    (extendBand keys right count).Ensures root s fun _ t =>
      t.left = s.left ∧ t.bandIndex = s.bandIndex ∧
        t.band.length + t.right.remaining right ≤ s.band.length + s.right.remaining right := by
  induction count generalizing s with
  | zero => exact ⟨rfl, rfl, Nat.le_refl _⟩
  | succ count ih =>
    rw [extendBand, Act.ensures_get_bind]
    cases hrow : s.right.row? with
    | none => exact ⟨rfl, rfl, Nat.le_refl _⟩
    | some row =>
      cases hhead : s.band.head? with
      | none => exact ⟨rfl, rfl, Nat.le_refl _⟩
      | some first =>
        dsimp only [Act.require]
        rw [Act.ensures_pure_bind]
        cases horder : Row.compareOn? row first keys.right keys.right with
        | none => exact ⟨rfl, rfl, Nat.le_refl _⟩
        | some order =>
          dsimp only
          rw [Act.ensures_pure_bind]
          split
          · rw [Act.ensures_set_bind]
            refine Act.Ensures.within_bind (Side.ensures_advance right root s.right) ?_ ?_
            · intro e t ht
              simp only [hrow, Option.isSome_some, if_true] at ht
              refine ⟨rfl, rfl, ?_⟩
              simp only [List.length_append, List.length_singleton]
              omega
            · intro _ t ht
              simp only [hrow, Option.isSome_some, if_true] at ht
              refine (ih _).mono fun _ u ⟨hleft, hindex, hlength⟩ => ⟨hleft, hindex, ?_⟩
              simp only [List.length_append, List.length_singleton] at hlength
              omega
          · exact ⟨rfl, rfl, Nat.le_refl _⟩

/-- A band is made of right rows that are then behind. -/
theorem ensures_fillBand (keys : Keys) (right : Cursor τ) (root : TempRoot) (s : State σ τ) :
    (fillBand keys right).Ensures root s fun _ t =>
      t.left = s.left ∧ t.bandIndex = s.bandIndex ∧
        t.band.length + t.right.remaining right ≤ s.band.length + s.right.remaining right := by
  rw [fillBand, Act.ensures_get_bind]
  cases hrow : s.right.row? with
  | none => exact ⟨rfl, rfl, Nat.le_refl _⟩
  | some first =>
    rw [Act.ensures_set_bind]
    refine Act.Ensures.within_bind (Side.ensures_advance right root s.right) ?_ ?_
    · intro e t ht
      simp only [hrow, Option.isSome_some, if_true] at ht
      refine ⟨rfl, rfl, ?_⟩
      simp only [List.length_singleton]
      omega
    · intro _ t ht
      simp only [hrow, Option.isSome_some, if_true] at ht
      rw [Act.ensures_get_bind]
      refine (ensures_extendBand keys right _ root _).mono fun _ u ⟨hleft, hindex, hlength⟩ =>
        ⟨hleft, hindex, ?_⟩
      simp only [List.length_singleton] at hlength
      omega

/-- A left row meets no more than the band and the right rows behind it. -/
theorem pred_mul_add_le {l n m : Nat} (hl : 0 < l) (hm : m ≤ n) : (l - 1) * n + m ≤ l * n := by
  obtain ⟨k, rfl⟩ : ∃ k, l = k + 1 := ⟨l - 1, by omega⟩
  rw [Nat.add_sub_cancel, Nat.succ_mul]
  omega

/-- Leaving a band for the next left row keeps the bound, if nothing of the band is left. -/
theorem ensures_leaveBand (keys : Keys) (left : Cursor σ) (right : Cursor τ) (root : TempRoot)
    (s : State σ τ) :
    (leaveBand keys left).Ensures root s fun _ t => pairs left right t ≤
      (if s.left.row?.isSome then s.left.remaining left - 1 else s.left.remaining left) *
        (s.band.length + s.right.remaining right) := by
  have hleft : ∀ t : Side σ,
      t.remaining left + (if s.left.row?.isSome then 1 else 0) ≤ s.left.remaining left →
      t.remaining left ≤
        (if s.left.row?.isSome then s.left.remaining left - 1 else s.left.remaining left) := by
    intro t ht
    split
    · next hrow =>
      rw [if_pos hrow] at ht
      omega
    · next hrow =>
      rw [if_neg hrow] at ht
      omega
  rw [leaveBand, Act.ensures_modify_bind]
  refine Act.Ensures.within_bind (Side.ensures_advance left root s.left) ?_ ?_
  · intro e t ht
    exact Nat.mul_le_mul_right _ (hleft t ht)
  · intro _ t ht
    replace ht := hleft t ht
    have hnone := Nat.mul_le_mul ht (Nat.add_le_add_right (Nat.zero_le s.band.length)
      (s.right.remaining right))
    have hsame := Nat.mul_le_mul_right (s.band.length + s.right.remaining right) ht
    rw [Act.ensures_get_bind]
    dsimp only
    cases hrow : t.row? with
    | none => exact hnone
    | some row =>
      cases hhead : s.band.head? with
      | none => exact hsame
      | some first =>
        dsimp only [Act.require]
        rw [Act.ensures_pure_bind]
        cases horder : Row.compareOn? row first keys.left keys.right with
        | none => exact hsame
        | some order =>
          dsimp only
          rw [Act.ensures_pure_bind]
          split
          · rw [Act.ensures_set]
            simp only [pairs, hrow, Option.isSome_some, if_true, Nat.sub_zero]
            exact Nat.le_trans (pred_mul_add_le (Side.remaining_pos left hrow)
              (Nat.le_add_right _ _)) hsame
          · exact hnone

theorem ensures_seekBand (keys : Keys) (left : Cursor σ) (right : Cursor τ) (root : TempRoot)
    (s : State σ τ) {l r : Row} (hl : s.left.row? = some l) (hindex : s.bandIndex = none) :
    (seekBand keys left right l r).Ensures root s fun _ t =>
      pairs left right t ≤ pairs left right s := by
  have hpairs : pairs left right s = s.left.remaining left *
      (s.band.length + s.right.remaining right) := by
    simp only [pairs, hindex]
  rw [seekBand]
  cases Row.compareOn? l r keys.left keys.right with
  | none => exact Nat.le_refl _
  | some order =>
    dsimp only [Act.require]
    rw [Act.ensures_pure_bind, hpairs]
    cases order with
    | lt =>
      refine Act.ensures_within.mpr ((Side.ensures_advance left root s.left).mono fun _ t ht => ?_)
      simp only [pairs, hindex]
      exact Nat.mul_le_mul_right _ (by omega)
    | gt =>
      refine Act.ensures_within.mpr ((Side.ensures_advance right root s.right).mono fun _ t ht => ?_)
      simp only [pairs, hindex]
      exact Nat.mul_le_mul_left _ (by omega)
    | eq =>
      refine (ensures_fillBand keys right root s).bind ?_ ?_
      · rintro e t ⟨hleft, hindex', hlength⟩
        simp only [pairs, hindex', hindex, hleft]
        exact Nat.mul_le_mul_left _ hlength
      · rintro _ t ⟨hleft, -, hlength⟩
        rw [Act.ensures_modify]
        simp only [pairs, hleft, hl, Option.isSome_some, if_true, Nat.sub_zero]
        refine Nat.le_trans (pred_mul_add_le (Side.remaining_pos left hl) (Nat.le_add_right _ _)) ?_
        exact Nat.mul_le_mul_left _ hlength

theorem cost_step (keys : Keys) (left : Cursor σ) (right : Cursor τ) (root : TempRoot)
    (s : State σ τ) :
    (step keys left right).Ensures root s fun answer t =>
      Step.cost answer + pairs left right t ≤ pairs left right s := by
  rw [step, Act.ensures_get_bind]
  cases hindex : s.bandIndex with
  | some index =>
    dsimp only
    cases hpaired : s.band[index]? with
    | some paired =>
      have hlt : index < s.band.length := (List.getElem?_eq_some_iff.mp hpaired).1
      cases hrow : s.left.row? with
      | none => exact Nat.le_of_eq (Nat.zero_add _)
      | some row =>
        dsimp only
        simp only [Act.ensures_set_bind, Act.ensures_pure, Step.cost, pairs, hindex, hrow]
        omega
    | none =>
      have hpairs := Nat.le_add_right
        ((if s.left.row?.isSome then s.left.remaining left - 1 else s.left.remaining left) *
          (s.band.length + s.right.remaining right)) (s.band.length - index)
      refine (ensures_leaveBand keys left right root s).bind ?_ ?_
      · intro e t ht
        simp only [Step.cost, Nat.zero_add, pairs, hindex] at ht ⊢
        exact Nat.le_trans ht hpairs
      · intro _ t ht
        simp only [Act.ensures_pure, Step.cost, Nat.zero_add, pairs, hindex] at ht ⊢
        exact Nat.le_trans ht hpairs
  | none =>
    dsimp only
    cases hl : s.left.row? with
    | none => exact Nat.le_of_eq (Nat.zero_add _)
    | some l =>
      cases hr : s.right.row? with
      | none => exact Nat.le_of_eq (Nat.zero_add _)
      | some r =>
        refine (ensures_seekBand keys left right root s hl hindex).bind ?_ ?_
        · intro e t ht
          simpa [Step.cost] using ht
        · intro _ t ht
          simpa [Act.ensures_pure, Step.cost] using ht

/-- Opens both inputs and reads their first pages. -/
def openUp (pageSize numBuffers : Nat) (left : Cursor σ) (right : Cursor τ) :
    Act (State σ τ) Unit := do
  unless (← get).isOpen do
    Act.ofExcept (validateBuffers numBuffers)
    let capacity ← Act.ofAnswer
      (Schema.pageCapacity (left.schema ++ right.schema) pageSize)
    modify fun s => { s with capacity }
    onLeft (Side.onSource left.openUp)
    match ← Act.attempt (onRight (Side.onSource right.openUp)) with
    | .ok () => pure ()
    | .error f =>
      let _ ← Act.attempt (onLeft (Side.onSource left.close))
      Act.abandon f
    modify reset
    onLeft (Side.load left)
    onRight (Side.load right)
    modify fun s => { s with isAtEnd := false, isOpen := true }

/-- Ends the output and closes both inputs. -/
def finish (left : Cursor σ) (right : Cursor τ) : Act (State σ τ) Unit := do
  modify fun s => { reset s with isAtEnd := true }
  onLeft (Side.onSource left.close)
  onRight (Side.onSource right.close)

/-- Fills a page with pairs. Both inputs are closed when there are no more. -/
def next (keys : Keys) (left : Cursor σ) (right : Cursor τ) : Act (State σ τ) (Option Batch) := do
  let s ← get
  if !s.isOpen then Act.fail .notOpen
  else if s.isAtEnd then pure none
  else
    let empty ← Act.ofAnswer (Draft.reserve s.capacity)
    let page ← gather .joinOutput (step keys left right) (steps left right s) empty
    if page.isFull then pure page.nonempty?
    else
      finish left right
      pure page.nonempty?

/-- Closes both inputs, the right one also if the left one fails to close. -/
def close (left : Cursor σ) (right : Cursor τ) : Act (State σ τ) Unit := do
  modify reset
  let leftEnd ← Act.attempt (onLeft (Side.onSource left.close))
  let rightEnd ← Act.attempt (onRight (Side.onSource right.close))
  modify fun s => { s with isOpen := false, isAtEnd := false }
  Act.ofAnswer leftEnd
  Act.ofAnswer rightEnd

def volume (left : Cursor σ) (right : Cursor τ) (s : State σ τ) : Nat :=
  if s.isAtEnd then 0 else 2 * pairs left right s

theorem volume_le (left : Cursor σ) (right : Cursor τ) (s : State σ τ) :
    volume left right s ≤ 2 * pairs left right s := by
  unfold volume
  split <;> omega

theorem ensures_finish (left : Cursor σ) (right : Cursor τ) (root : TempRoot) (s : State σ τ) :
    (finish left right).Ensures root s fun _ t => t.isAtEnd = true := by
  have hleft : (onLeft (Side.onSource left.close)).Ensures root { reset s with isAtEnd := true }
      fun _ (t : State σ τ) => t.isAtEnd = true := rfl
  rw [finish, Act.ensures_modify_bind]
  exact hleft.bind (fun _ _ ht => ht) fun _ _ ht => ht

theorem volume_next (keys : Keys) (left : Cursor σ) (right : Cursor τ) (root : TempRoot)
    (s : State σ τ) :
    (next keys left right).Ensures root s fun answer t =>
      pageCost answer + volume left right t ≤ volume left right s := by
  rw [next, Act.ensures_get_bind]
  split
  · exact Nat.le_of_eq (Nat.zero_add _)
  · split
    · exact Nat.le_of_eq (Nat.zero_add _)
    · next hend =>
      have hvolume : volume left right s = 2 * pairs left right s := by simp [volume, hend]
      rw [hvolume]
      cases hreserve : Draft.reserve s.capacity with
      | error e =>
        simp only [Act.ofAnswer, Act.ensures_abandon_bind, pageCost, Nat.zero_add]
        exact volume_le left right s
      | ok page =>
        obtain rfl := Draft.eq_empty_of_reserve hreserve
        rw [Act.ofAnswer, Act.ensures_pure_bind]
        refine (ensures_gather (cost_step keys left right) _ _ _ root s).bind ?_ ?_
        · rintro e t ⟨ht, -⟩
          have := volume_le left right t
          simp only [pageCost]
          omega
        · rintro page t ⟨ht, hlength⟩
          have hspent := hlength page rfl
          have hcost := pageCost_nonempty? page
          have := volume_le left right t
          simp only [Draft.batch_empty, Batch.length, Batch.empty, List.length_nil] at hspent hcost
          have hpage : pageCost (.ok page.nonempty? : Except Failure (Option Batch)) ≤
              2 * pairs left right s := by omega
          split
          · rw [Act.ensures_pure]
            omega
          · refine (ensures_finish left right root t).bind ?_ ?_
            · intro e u hu
              simp [pageCost, volume, hu]
            · intro _ u hu
              simpa [Act.ensures_pure, volume, hu] using hpage

/-- The join of two inputs that are sorted on their keys. -/
def overSorted (pageSize numBuffers : Nat) (keys : Keys) (left : Cursor σ) (right : Cursor τ) :
    Cursor (State σ τ) where
  schema := left.schema ++ right.schema
  start := ⟨⟨left.start, none, 0⟩, ⟨right.start, none, 0⟩, false, 0, [], none, false⟩
  openUp := openUp pageSize numBuffers left right
  next := next keys left right
  close := close left right
  volume := volume left right
  folders s := left.folders s.left.source ++ right.folders s.right.source
  volume_next := volume_next keys left right

/-- How one side is sorted. -/
def sortSpec (pageSize numBuffers : Nat) (label : String) (key : List Nat) : SortSpec :=
  ⟨pageSize, numBuffers, label, key, false⟩

/-- The join of two inputs, each sorted on its key first. -/
def cursor (pageSize numBuffers : Nat) (keys : Keys) (left : Cursor σ) (right : Cursor τ) :
    Cursor (State (MergeSort.State σ) (MergeSort.State τ)) :=
  overSorted pageSize numBuffers keys
    (MergeSort.cursor (sortSpec pageSize numBuffers "left" keys.left) left)
    (MergeSort.cursor (sortSpec pageSize numBuffers "right" keys.right) right)

end Join
end PagedQuery
