import PagedQuery.Cursor.Gather

/-!
# Projection

Keeps the fields at given positions of every row. Pages are sized for the projected columns, so they
may hold more rows than those of the child.
-/

namespace PagedQuery
namespace Project

/-- Checks the positions against the child's columns. -/
def validate (fields : List Nat) (schema : Schema) : Except Error Unit :=
  if fields.isEmpty then .error .emptyProjection
  else
    match fields.find? (schema.length ≤ ·) with
    | some position => .error (.projectionOutOfRange position schema)
    | none => .ok ()

structure State (σ : Type) where
  child : σ
  isOpen : Bool
  capacity : Nat
  /-- Projected rows of the child's last page that are not yet on an output page. -/
  pending : List Row

variable {σ : Type}

def onChild {α : Type} (x : Act σ α) : Act (State σ) α :=
  Act.within (·.child) (fun s child => { s with child }) x

/-- Yields a pending row, or fetches a page to project. -/
def step (fields : List Nat) (child : Cursor σ) : Act (State σ) Step := do
  let s ← get
  match s.pending with
  | row :: pending =>
    set { s with pending }
    pure (.row row)
  | [] =>
    match ← onChild child.next with
    | none => pure .done
    | some batch =>
      let pending ← Act.require (batch.rows.mapM (Row.project? · fields))
      modify fun s => { s with pending }
      pure .skip

def outputSchema (fields : List Nat) (schema : Schema) : Schema := (schema.select? fields).getD []

/-- Opens the child, once a page is known to hold a row. -/
def openUp (pageSize : Nat) (fields : List Nat) (child : Cursor σ) : Act (State σ) Unit := do
  unless (← get).isOpen do
    let capacity ← Act.ofAnswer ((outputSchema fields child.schema).pageCapacity pageSize)
    modify fun s => { s with capacity }
    onChild child.openUp
    modify fun s => { s with pending := [], isOpen := true }

def steps (child : Cursor σ) (s : State σ) : Nat := s.pending.length + child.volume s.child + 1

def next (fields : List Nat) (child : Cursor σ) : Act (State σ) (Option Batch) := do
  let s ← get
  if s.isOpen then
    let empty ← Act.ofAnswer (Draft.reserve s.capacity)
    let page ← gather .projectionOutput (step fields child) (steps child s) empty
    pure page.nonempty?
  else
    Act.fail .notOpen

def close (child : Cursor σ) : Act (State σ) Unit := do
  modify fun s => { s with pending := [], isOpen := false }
  onChild child.close

def volume (child : Cursor σ) (s : State σ) : Nat := s.pending.length + child.volume s.child

theorem length_of_mapM_eq_some {α β : Type} {f : α → Option β} {as : List α} {bs : List β}
    (h : as.mapM f = some bs) : bs.length = as.length := by
  induction as generalizing bs with
  | nil =>
    obtain rfl : [] = bs := Option.some.inj h
    rfl
  | cons a as ih =>
    simp only [List.mapM_cons, Option.bind_eq_bind, Option.pure_def, Option.bind_eq_some_iff] at h
    obtain ⟨b, -, rest, hrest, hbs⟩ := h
    rw [← Option.some.inj hbs, List.length_cons, List.length_cons, ih hrest]

theorem volume_step (fields : List Nat) (child : Cursor σ) (root : TempRoot) (s : State σ) :
    (step fields child).Ensures root s fun answer t =>
      Step.cost answer + volume child t ≤ volume child s := by
  rcases s with ⟨c, isOpen, capacity, _ | ⟨row, pending⟩⟩
  · rw [step, Act.ensures_get_bind]
    refine Act.Ensures.within_bind (child.volume_next root c) ?_ ?_
    · intro e t hcost
      simpa [Step.cost, pageCost, volume] using hcost
    · rintro (_ | batch) t hcost
      · simpa [Act.ensures_pure, Step.cost, pageCost, volume] using hcost
      · simp only [pageCost] at hcost
        cases hrows : batch.rows.mapM (Row.project? · fields) with
        | none =>
          simp only [hrows, Act.require, Act.ensures_abandon_bind, Step.cost, volume]
          omega
        | some pending =>
          have hlength := length_of_mapM_eq_some hrows
          simp only [hrows, Act.require, Act.ensures_pure_bind, Act.ensures_modify_bind,
            Act.ensures_pure, Step.cost, volume, hlength, Batch.length] at hcost ⊢
          omega
  · simp only [step, Act.ensures_get_bind, Act.ensures_set_bind, Act.ensures_pure, Step.cost, volume,
      List.length_cons]
    omega

theorem volume_next (fields : List Nat) (child : Cursor σ) (root : TempRoot) (s : State σ) :
    (next fields child).Ensures root s fun answer t =>
      pageCost answer + 2 * volume child t ≤ 2 * volume child s := by
  rw [next, Act.ensures_get_bind]
  split
  · exact ensures_fill (volume_step fields child) _ _ _ root s
  · simp [Act.ensures_fail, pageCost]

def cursor (pageSize : Nat) (fields : List Nat) (child : Cursor σ) : Cursor (State σ) where
  schema := outputSchema fields child.schema
  start := ⟨child.start, false, 0, []⟩
  openUp := openUp pageSize fields child
  next := next fields child
  close := close child
  volume s := 2 * volume child s
  folders s := child.folders s.child
  volume_next := volume_next fields child

end Project
end PagedQuery
