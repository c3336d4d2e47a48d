import PagedQuery.Cursor
import PagedQuery.Proofs.ActAnswers

namespace PagedQuery
namespace Cursor

variable {σ : Type}

/-- The next calls give pages with rows, one after the other. -/
inductive Yields (c : Cursor σ) (root : TempRoot) : σ → List Batch → σ → Prop
  | nil (s : σ) : Yields c root s [] s
  | cons {s t u : σ} {batch : Batch} {batches : List Batch}
      (hnext : c.next.Gives root s (some batch) t) (hrows : batch.rows ≠ [])
      (hrest : Yields c root t batches u) : Yields c root s (batch :: batches) u

/-- An answer behind which a consumer asks for no further page. -/
def endsInput : Option Batch → Bool
  | none => true
  | some batch => batch.isEmpty

/-- The next calls give pages with rows and then an end, which can be a page without rows. -/
def Delivers (c : Cursor σ) (root : TempRoot) (s : σ) (batches : List Batch) (u : σ) : Prop :=
  ∃ t answer, c.Yields root s batches t ∧ c.next.Gives root t answer u ∧ endsInput answer = true

/-- The next calls give pages with rows and then none, and every state they lead to is of a kind. -/
inductive Supplies (c : Cursor σ) (root : TempRoot) (P : σ → Prop) : σ → List Batch → Prop
  | ended {s t : σ} (hnext : c.next.Gives root s none t) (hafter : P t) : Supplies c root P s []
  | page {s t : σ} {batch : Batch} {batches : List Batch}
      (hnext : c.next.Gives root s (some batch) t) (hrows : batch.rows ≠ []) (hafter : P t)
      (hrest : Supplies c root P t batches) : Supplies c root P s (batch :: batches)

/-- Whether an operator before some pages gives the next of them, and none once it is behind all. -/
structure HandsPages (c : Cursor σ) (root : TempRoot) (before : List Batch → σ → Prop) : Prop where
  page : ∀ batch pages s, before (batch :: pages) s →
    ∃ t, before pages t ∧ c.next.Gives root s (some batch) t
  ending : ∀ s, before [] s → ∃ t, before [] t ∧ c.next.Gives root s none t

variable {c : Cursor σ} {root : TempRoot} {s t u : σ} {batches : List Batch}

theorem volume_of_gives {answer : Option Batch} (h : c.next.Gives root s answer t) :
    pageCost (.ok answer : Except Failure (Option Batch)) + c.volume t ≤ c.volume s := by
  obtain ⟨hanswer, rfl⟩ := h
  rw [← hanswer]
  exact c.volume_next root s

theorem Yields.length_le (h : c.Yields root s batches t) :
    batches.length + c.volume t ≤ c.volume s := by
  induction h with
  | nil s => exact Nat.le_of_eq (Nat.zero_add _)
  | cons hnext hrows hrest ih =>
    have hcost := volume_of_gives hnext
    simp only [pageCost] at hcost
    rw [List.length_cons]
    omega

theorem Yields.pull (h : c.Yields root s batches t) (hend : c.next.Gives root t none u)
    {steps : Nat} (hsteps : batches.length < steps) :
    (c.pull steps).Gives root s (batches, none) u := by
  induction h generalizing steps with
  | nil s =>
    obtain ⟨steps, rfl⟩ : ∃ n, steps = n + 1 := ⟨steps - 1, by omega⟩
    exact hend.attempt.bind Act.gives_pure
  | cons hnext hrows hrest ih =>
    rw [List.length_cons] at hsteps
    obtain ⟨steps, rfl⟩ : ∃ n, steps = n + 1 := ⟨steps - 1, by omega⟩
    exact hnext.attempt.bind ((ih hend (by omega)).bind Act.gives_pure)

theorem Yields.drain (h : c.Yields root s batches t) (hend : c.next.Gives root t none u) :
    c.drain.Gives root s (batches, none) u := by
  have hlength := h.length_le
  exact Act.gives_get_bind.mpr (h.pull hend (by omega))

/-- A cursor delivers the same pages every time it is asked from the same state. -/
theorem Delivers.unique {batches' : List Batch} {u' : σ} (h : c.Delivers root s batches u)
    (h' : c.Delivers root s batches' u') : batches = batches' ∧ u = u' := by
  have hpage {batch : Batch} (hrows : batch.rows ≠ []) : ¬endsInput (some batch) = true := by
    simpa [endsInput, Batch.isEmpty] using hrows
  obtain ⟨t, answer, hyields, hnext, hend⟩ := h
  obtain ⟨t', answer', hyields', hnext', hend'⟩ := h'
  induction hyields generalizing batches' with
  | nil s =>
    cases hyields' with
    | nil => exact ⟨rfl, (hnext.unique hnext').2⟩
    | cons hfirst hrows _ =>
      obtain ⟨rfl, -⟩ := hnext.unique hfirst
      exact absurd hend (hpage hrows)
  | cons hfirst hrows _ ih =>
    cases hyields' with
    | nil =>
      obtain ⟨rfl, -⟩ := hnext'.unique hfirst
      exact absurd hend' (hpage hrows)
    | cons hfirst' _ hrest' =>
      obtain ⟨hbatch, rfl⟩ := hfirst.unique hfirst'
      obtain ⟨rfl, hu⟩ := ih hnext hrest'
      rw [Option.some.inj hbatch]
      exact ⟨rfl, hu⟩

theorem Supplies.exists_yields {P : σ → Prop} (h : c.Supplies root P s batches) :
    ∃ t u, c.Yields root s batches t ∧ c.next.Gives root t none u := by
  induction h with
  | ended hnext hafter => exact ⟨_, _, .nil _, hnext⟩
  | page hnext hrows hafter hrest ih =>
    obtain ⟨t, u, hyields, hend⟩ := ih
    exact ⟨t, u, .cons hnext hrows hyields, hend⟩

theorem Supplies.mono {P Q : σ → Prop} (h : c.Supplies root P s batches) (hPQ : ∀ s, P s → Q s) :
    c.Supplies root Q s batches := by
  induction h with
  | ended hnext hafter => exact .ended hnext (hPQ _ hafter)
  | page hnext hrows hafter hrest ih => exact .page hnext hrows (hPQ _ hafter) ih

theorem Supplies.length_le {P : σ → Prop} (h : c.Supplies root P s batches) :
    (batches.flatMap (·.rows)).length ≤ c.volume s := by
  induction h with
  | ended hnext hafter => exact Nat.zero_le _
  | page hnext hrows hafter hrest ih =>
    have hcost := volume_of_gives hnext
    simp only [pageCost, Batch.length] at hcost
    rw [List.flatMap_cons, List.length_append]
    omega

theorem HandsPages.total_le_volume {before : List Batch → σ → Prop} (h : c.HandsPages root before)
    {pages : List Batch} (hs : before pages s) :
    total (fun page : Batch => page.length + 1) pages ≤ c.volume s := by
  induction pages generalizing s with
  | nil => exact Nat.zero_le _
  | cons batch pages ih =>
    obtain ⟨t, ht, hnext⟩ := h.page batch pages s hs
    have hcost := volume_of_gives hnext
    have hrest := ih ht
    simp only [pageCost] at hcost
    rw [total_cons]
    omega

end Cursor
end PagedQuery
