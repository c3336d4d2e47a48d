import PagedQuery.Cursor
import PagedQuery.Draft

/-!
# Filling output pages

An operator that builds its own pages works in small steps: a step yields a row, moves on without
one, or says that there are no more. `gather` repeats steps until the page is full or the rows end.
If a step fails, the rows already on the page are gone with it.
-/

namespace PagedQuery

/-- What one step of an operator brings. -/
inductive Step where
  | row (row : Row)
  | skip
  | done
  deriving DecidableEq, Repr

/-- Puts the rows that `step` yields on a page until it is full. The first number bounds the
steps. -/
def gather {σ : Type} (role : PageRole) (step : Act σ Step) : Nat → Draft → Act σ Batch
  | 0, page => pure page.batch
  | steps + 1, page => do
    if page.isFull then pure page.batch
    else
      match ← step with
      | .done => pure page.batch
      | .skip => gather role step steps page
      | .row row =>
        match page.push? row with
        | some page => gather role step steps page
        | none => Act.fail (.pageOverflow role)

/-- What a step takes off a volume: one for a row. -/
def Step.cost : Except Failure Step → Nat
  | .ok (.row _) => 1
  | _ => 0

theorem length_batch_of_push? {page page' : Draft} {row : Row} (h : page.push? row = some page') :
    page'.batch.length = page.batch.length + 1 := by
  have hbatch := page.map_batch_push? row
  rw [h, Option.map_some, Batch.push?] at hbatch
  split at hbatch
  · cases hbatch
  · rw [Option.some.inj hbatch]
    simp [Batch.length]

theorem ensures_gather {σ : Type} {volume : σ → Nat} {step : Act σ Step}
    (hstep : ∀ root s, step.Ensures root s fun answer t => Step.cost answer + volume t ≤ volume s)
    (role : PageRole) (steps : Nat) (page : Draft) (root : TempRoot) (s : σ) :
    (gather role step steps page).Ensures root s fun answer t => volume t ≤ volume s ∧
      ∀ batch, answer = .ok batch → batch.length + volume t ≤ page.batch.length + volume s := by
  induction steps generalizing page s with
  | zero =>
    refine ⟨Nat.le_refl _, fun batch h => ?_⟩
    cases h
    exact Nat.le_refl _
  | succ steps ih =>
    unfold gather
    split
    · refine ⟨Nat.le_refl _, fun batch h => ?_⟩
      cases h
      exact Nat.le_refl _
    · refine (hstep root s).bind ?_ ?_
      · intro e t hcost
        exact ⟨by simpa [Step.cost] using hcost, fun batch h => by cases h⟩
      · intro found t hcost
        cases found with
        | done =>
          simp only [Step.cost, Nat.zero_add] at hcost
          refine ⟨hcost, fun batch h => ?_⟩
          cases h
          exact Nat.add_le_add_left hcost _
        | skip =>
          simp only [Step.cost, Nat.zero_add] at hcost
          refine (ih page t).mono fun answer u ⟨hvolume, hlength⟩ => ?_
          exact ⟨Nat.le_trans hvolume hcost, fun batch h =>
            Nat.le_trans (hlength batch h) (Nat.add_le_add_left hcost _)⟩
        | row row =>
          simp only [Step.cost] at hcost
          dsimp only
          split
          · next page' hpush =>
            refine (ih page' t).mono fun answer u ⟨hvolume, hlength⟩ => ⟨by omega, fun batch h => ?_⟩
            have hlonger := length_batch_of_push? hpush
            have := hlength batch h
            omega
          · rw [Act.ensures_fail]
            exact ⟨by omega, fun batch h => by cases h⟩

/-- A page that is handed on only if it holds a row costs at most two for each of them. -/
theorem pageCost_nonempty? (batch : Batch) :
    pageCost (.ok batch.nonempty? : Except Failure (Option Batch)) ≤ 2 * batch.length := by
  cases hrows : batch.rows with
  | nil => simp [Batch.nonempty?, Batch.isEmpty, hrows, pageCost]
  | cons row rows =>
    simp only [Batch.nonempty?, Batch.isEmpty, hrows, List.isEmpty_cons, Bool.false_eq_true,
      if_false, pageCost, Batch.length, List.length_cons]
    omega

theorem ensures_fill {σ : Type} {volume : σ → Nat} {step : Act σ Step}
    (hstep : ∀ root s, step.Ensures root s fun answer t => Step.cost answer + volume t ≤ volume s)
    (role : PageRole) (steps capacity : Nat) (root : TempRoot) (s : σ) :
    (do
      let empty ← Act.ofAnswer (Draft.reserve capacity)
      let page ← gather role step steps empty
      pure page.nonempty?).Ensures root s fun answer t =>
        pageCost answer + 2 * volume t ≤ 2 * volume s := by
  cases hreserve : Draft.reserve capacity with
  | error e => simp [Act.ofAnswer, Act.ensures_abandon_bind, pageCost]
  | ok page =>
    obtain rfl := Draft.eq_empty_of_reserve hreserve
    refine (ensures_gather hstep role steps (.empty capacity) root s).bind ?_ ?_
    · rintro e t ⟨hvolume, -⟩
      simpa [pageCost] using Nat.mul_le_mul_left 2 hvolume
    · rintro page t ⟨-, hlength⟩
      have hspent := hlength page rfl
      have hcost := pageCost_nonempty? page
      simp only [Draft.batch_empty, Batch.length, Batch.empty, List.length_nil] at hspent hcost
      rw [Act.ensures_pure]
      omega

end PagedQuery
