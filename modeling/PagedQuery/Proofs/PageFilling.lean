import PagedQuery.Cursor.Gather
import PagedQuery.Proofs.CursorPages
import PagedQuery.Proofs.Paging

namespace PagedQuery

variable {σ : Type} {step : Act σ Step} {root : TempRoot} {Brings : Nat → σ → List Row → Prop}

theorem Draft.capacity_of_push? {page page' : Draft} {row : Row} (h : page.push? row = some page') :
    page'.capacity = page.capacity := by
  have hbatch := page.map_batch_push? row
  rw [h, Option.map_some, Batch.push?] at hbatch
  split at hbatch
  · cases hbatch
  · exact congrArg Batch.capacity (Option.some.inj hbatch)

theorem Draft.length_batch_le (page : Draft) : page.batch.length ≤ page.capacity := by
  have hfits := page.fits
  have hlength : page.batch.length = page.latest.length := List.length_reverse
  omega

/-- What every step leaves, filling a page leaves. The page keeps its capacity and holds no more. -/
theorem gather_keeps {P : σ → Prop} (hstep : ∀ s, P s → step.Ensures root s fun _ t => P t)
    (role : PageRole) (steps : Nat) (page : Draft) {s : σ} (hs : P s) :
    (gather role step steps page).Ensures root s fun answer t => P t ∧ ∀ batch, answer = .ok batch →
      batch.capacity = page.capacity ∧ batch.length ≤ page.capacity := by
  have hbatch {page : Draft} {s : σ} (hs : P s) : (pure page.batch : Act σ Batch).Ensures root s
      fun answer t => P t ∧ ∀ batch, answer = .ok batch →
        batch.capacity = page.capacity ∧ batch.length ≤ page.capacity := by
    refine ⟨hs, fun batch h => ?_⟩
    cases h
    exact ⟨rfl, page.length_batch_le⟩
  induction steps generalizing page s with
  | zero => exact hbatch hs
  | succ steps ih =>
    unfold gather
    split
    · exact hbatch hs
    · refine (hstep s hs).bind ?_ ?_
      · intro e t ht
        exact ⟨ht, fun batch h => by cases h⟩
      · intro found t ht
        cases found with
        | done => exact hbatch ht
        | skip => exact ih page ht
        | row row =>
          cases hpush : page.push? row with
          | none =>
            simp only [hpush]
            exact Act.ensures_fail.mpr ⟨ht, fun batch h => by cases h⟩
          | some page' =>
            simp only [hpush]
            rw [← Draft.capacity_of_push? hpush]
            exact ih page' ht

/-- Whether steps bring the rows that a state is said to bring. The number bounds the steps that
it takes to bring them. -/
def Step.Keeps (step : Act σ Step) (root : TempRoot) (Brings : Nat → σ → List Row → Prop) : Prop :=
  ∀ n s rows, Brings n s rows →
    (∃ m t, rows = [] ∧ step.Gives root s .done t ∧ Brings m t []) ∨
    (∃ m t, m < n ∧ step.Gives root s .skip t ∧ Brings m t rows) ∨
    ∃ m t row others, m < n ∧ rows = row :: others ∧ step.Gives root s (.row row) t ∧
      Brings m t others

/-- A page takes rows until it is full or there are no more. -/
theorem exists_gives_gather (hstep : Step.Keeps step root Brings) (role : PageRole)
    {capacity n steps : Nat} {s : σ} {rows rest : List Row} {page : Draft}
    (hs : Brings n s rows) (hsteps : n < steps) (hpage : page.batch = ⟨capacity, rest⟩)
    (hrest : rest.length ≤ capacity) :
    ∃ m t, Brings m t (rows.drop (capacity - rest.length)) ∧
      (gather role step steps page).Gives root s
        ⟨capacity, rest ++ rows.take (capacity - rest.length)⟩ t := by
  -- The page takes no more steps than the rows need, so the steps do not run out before it is full.
  induction steps generalizing n s rows page rest with
  | zero => cases hsteps
  | succ steps ih =>
    rw [gather, isFull_of_batch hpage]
    rcases Nat.lt_or_eq_of_le hrest with hroom | hfull
    · rw [if_neg (by simpa using hroom)]
      rcases hstep n s rows hs with ⟨m, t, rfl, hdone, ht⟩ | ⟨m, t, hlt, hskip, ht⟩ |
        ⟨m, t, row, others, hlt, rfl, hrow, ht⟩
      · refine ⟨m, t, by rwa [List.drop_nil], hdone.bind ?_⟩
        rw [List.take_nil, List.append_nil, ← hpage]
        exact Act.gives_pure
      · obtain ⟨m', u, hu, hgather⟩ := ih ht (by omega) hpage hrest
        exact ⟨m', u, hu, hskip.bind hgather⟩
      · obtain ⟨page', hpush, hpage'⟩ := exists_push? hpage hroom row
        have hlength : (rest ++ [row]).length = rest.length + 1 := List.length_append
        obtain ⟨m', u, hu, hgather⟩ := ih ht (by omega) hpage' (by omega)
        have hleft : capacity - rest.length = capacity - (rest ++ [row]).length + 1 := by omega
        refine ⟨m', u, ?_, hrow.bind ?_⟩
        · rwa [hleft, List.drop_succ_cons]
        · simp only [hpush]
          rw [hleft, List.take_succ_cons, List.append_cons]
          exact hgather
    · rw [if_pos (by simp [hfull]), hfull, Nat.sub_self, List.drop_zero, List.take_zero,
        List.append_nil, ← hpage]
      exact ⟨n, s, hs, Act.gives_pure⟩

def fillPage (role : PageRole) (step : Act σ Step) (steps capacity : Nat) : Act σ (Option Batch) := do
  let empty ← Act.ofAnswer (Draft.reserve capacity)
  let page ← gather role step steps empty
  pure page.nonempty?

theorem exists_gives_fillPage (hstep : Step.Keeps step root Brings) (role : PageRole)
    {capacity n steps : Nat} {s : σ} {rows : List Row}
    (hmemory : fitsMemory capacity Batch.rowRoom = true) (hs : Brings n s rows) (hsteps : n < steps) :
    ∃ m t, Brings m t (rows.drop capacity) ∧
      (fillPage role step steps capacity).Gives root s
        (Batch.nonempty? ⟨capacity, rows.take capacity⟩) t := by
  obtain ⟨m, t, ht, hgather⟩ := exists_gives_gather hstep role hs hsteps
    (Draft.batch_empty capacity) (Nat.zero_le _)
  rw [List.length_nil, Nat.sub_zero] at ht hgather
  rw [List.nil_append] at hgather
  refine ⟨m, t, ht, (Act.gives_ofAnswer (Draft.reserve_of_fitsMemory hmemory)).bind ?_⟩
  exact hgather.bind Act.gives_pure

/-- Whether an operator still has to bring the rows of these pages. -/
def FillsPages (Brings : Nat → σ → List Row → Prop) (capacity : Nat) (pages : List Batch) (s : σ) :
    Prop :=
  0 < capacity ∧ ∃ n rows, Brings n s rows ∧ pages = Batch.pages capacity rows

/-- Whether the next page of an operator holds as many rows as there is room for of those that it
brings. -/
def Cursor.Fills (c : Cursor σ) (root : TempRoot) (capacity : Nat)
    (Brings : Nat → σ → List Row → Prop) : Prop :=
  ∀ n s rows, Brings n s rows → ∃ m t, Brings m t (rows.drop capacity) ∧
    c.next.Gives root s (Batch.nonempty? ⟨capacity, rows.take capacity⟩) t

namespace Cursor.Fills

variable {c : Cursor σ} {capacity : Nat} {s : σ} {batch : Batch} {pages : List Batch}

theorem exists_gives_page (h : c.Fills root capacity Brings)
    (hs : FillsPages Brings capacity (batch :: pages) s) :
    ∃ t, FillsPages Brings capacity pages t ∧ c.next.Gives root s (some batch) t := by
  obtain ⟨hc, n, rows, hs, hpages⟩ := hs
  obtain ⟨m, t, ht, hnext⟩ := h n s rows hs
  obtain ⟨hpage, hrest⟩ := Batch.of_pages_eq_cons hc hpages.symm
  exact ⟨t, ⟨hc, m, _, ht, hrest⟩, hpage ▸ hnext⟩

theorem exists_gives_none (h : c.Fills root capacity Brings)
    (hs : FillsPages Brings capacity [] s) :
    ∃ t, FillsPages Brings capacity [] t ∧ c.next.Gives root s none t := by
  obtain ⟨hc, n, rows, hs, hpages⟩ := hs
  obtain rfl : rows = [] := by rw [← Batch.flatMap_rows_pages hc rows, ← hpages, List.flatMap_nil]
  obtain ⟨m, t, ht, hnext⟩ := h n s [] hs
  rw [List.drop_nil] at ht
  rw [List.take_nil] at hnext
  exact ⟨t, ⟨hc, m, [], ht, rfl⟩, hnext⟩

end Cursor.Fills

theorem FillsPages.rows_ne_nil {capacity : Nat} {pages : List Batch} {s : σ}
    (h : FillsPages Brings capacity pages s) : ∀ batch ∈ pages, batch.rows ≠ [] := by
  obtain ⟨hc, n, rows, -, rfl⟩ := h
  exact Batch.rows_ne_nil_of_mem_pages hc

/-- All pages to come are given, one after the other. -/
theorem Cursor.Fills.supplies {c : Cursor σ} {capacity : Nat} {s : σ} {pages : List Batch}
    (h : c.Fills root capacity Brings) (hs : FillsPages Brings capacity pages s) :
    c.Supplies root (fun _ => True) s pages := by
  induction pages generalizing s with
  | nil =>
    obtain ⟨t, -, hnext⟩ := h.exists_gives_none hs
    exact .ended hnext trivial
  | cons batch pages ih =>
    obtain ⟨t, ht, hnext⟩ := h.exists_gives_page hs
    exact .page hnext (hs.rows_ne_nil batch List.mem_cons_self) trivial (ih ht)

end PagedQuery
