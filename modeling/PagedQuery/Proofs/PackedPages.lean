import PagedQuery.Proofs.CallHistories
import PagedQuery.Proofs.PageFilling

/-!
# Packed pages

Pages are packed if they are rows cut into pieces of as many as a page has room for. An operator gives
packed pages if a page that is not full is handed on only when there are no rows behind it. For an
operator that fills its pages step by step this comes down to what single steps do: those that bring a
row or pass leave less to do, and once one finds no more rows, the others find none either.
-/

namespace PagedQuery

namespace Batch

/-- Whether these are rows on pages of `pageSize` bytes that hold as many as fit, but for the last. -/
structure ArePacked (pageSize rowSize : Nat) (batches : List Batch) : Prop where
  eq_pages : batches = pages (pageSize / rowSize) (batches.flatMap (·.rows))
  fits : ∀ batch ∈ batches, batch.capacity = pageSize / rowSize ∧ batch.rows ≠ [] ∧
    batch.length * rowSize ≤ pageSize
  full : ∀ batch ∈ batches.dropLast, batch.length = pageSize / rowSize

theorem length_of_mem_dropLast_pages {capacity : Nat} (hc : 0 < capacity) {rows : List Row}
    {batch : Batch} (h : batch ∈ (pages capacity rows).dropLast) : batch.length = capacity := by
  induction rows using chunks_induction hc with
  | nil => cases h
  | step rows hrows ih =>
    have hpages : pages capacity rows =
        ⟨capacity, rows.take capacity⟩ :: pages capacity (rows.drop capacity) := by
      rw [pages, chunks_of_ne_nil hc hrows, List.map_cons, pages]
    rw [hpages] at h
    -- Another page behind the first one takes more rows than the first one has room for.
    by_cases hmore : rows.drop capacity = []
    · rw [hmore, pages, chunks_nil] at h
      cases h
    · have hne : pages capacity (rows.drop capacity) ≠ [] := by
        rw [pages, chunks_of_ne_nil hc hmore]
        exact List.cons_ne_nil _ _
      rw [List.dropLast_cons_of_ne_nil hne] at h
      rcases List.mem_cons.mp h with rfl | h
      · have hlong := List.length_pos_iff.mpr hmore
        rw [List.length_drop] at hlong
        exact List.length_take_of_le (by omega)
      · exact ih h

theorem arePacked_pages {pageSize rowSize : Nat} (hc : 0 < pageSize / rowSize) (rows : List Row) :
    ArePacked pageSize rowSize (pages (pageSize / rowSize) rows) where
  eq_pages := by rw [flatMap_rows_pages hc]
  fits batch hbatch := by
    obtain ⟨hcapacity, -, hlength, -, -⟩ := mem_pages hc hbatch
    refine ⟨hcapacity, rows_ne_nil_of_mem_pages hc batch hbatch, ?_⟩
    exact Nat.le_trans (Nat.mul_le_mul_right rowSize hlength) (Nat.div_mul_le_self pageSize rowSize)
  full _ hbatch := length_of_mem_dropLast_pages hc hbatch

end Batch

namespace Cursor

variable {σ : Type} {c : Cursor σ} {root : TempRoot} {s t : σ} {capacity : Nat}
  {batches : List Batch}

/-- The next calls give pages, one after the other, and then none. -/
inductive GivesOut (c : Cursor σ) (root : TempRoot) : σ → List Batch → Prop
  | ended {s t : σ} (hnext : c.next.Gives root s none t) : GivesOut c root s []
  | page {s t : σ} {batch : Batch} {batches : List Batch}
      (hnext : c.next.Gives root s (some batch) t) (hrest : GivesOut c root t batches) :
      GivesOut c root s (batch :: batches)

/-- A drain in which no call fails has seen the end of the pages. -/
theorem givesOut_of_drain (h : c.drain.Gives root s (batches, none) t) :
    c.GivesOut root s batches := by
  suffices hpull : ∀ {steps : Nat} {s : σ} {batches : List Batch}, c.volume s < steps →
      (c.pull steps).Gives root s (batches, none) t → c.GivesOut root s batches from
    hpull (Nat.lt_succ_self _) (Act.gives_get_bind.mp h)
  clear h
  intro steps
  induction steps with
  | zero => exact fun hsteps _ => absurd hsteps (Nat.not_lt_zero _)
  | succ steps ih =>
    intro s batches hsteps hpull
    obtain ⟨attempted, s', hattempt, hlater⟩ := hpull.of_bind
    rcases Act.gives_or_fails c.next root s with ⟨answer, s'', hnext⟩ | ⟨f, hnext⟩
    · obtain ⟨rfl, rfl⟩ := hattempt.unique hnext.attempt
      cases answer with
      | none =>
        cases (hlater.unique Act.gives_pure).1
        exact .ended hnext
      | some batch =>
        obtain ⟨⟨rest, ending⟩, u, hrest, hlast⟩ := hlater.of_bind
        cases (hlast.unique Act.gives_pure).1
        obtain ⟨-, rfl⟩ := hlast.unique Act.gives_pure
        have hcost := volume_of_gives hnext
        simp only [pageCost] at hcost
        exact .page hnext (ih (by omega) hrest)
    · obtain ⟨u, hfailed⟩ := hnext.exists_attempt
      obtain ⟨rfl, -⟩ := hattempt.unique hfailed
      cases (hlater.unique Act.gives_pure).1

theorem GivesOut.length_le_volume (h : c.GivesOut root s batches) : batches.length ≤ c.volume s := by
  induction h with
  | ended hnext => exact Nat.zero_le _
  | page hnext hrest ih =>
    have hcost := volume_of_gives hnext
    simp only [pageCost] at hcost
    rw [List.length_cons]
    omega

theorem HandsPages.givesOut {before : List Batch → σ → Prop} (h : c.HandsPages root before)
    (hs : before batches s) : c.GivesOut root s batches := by
  induction batches generalizing s with
  | nil =>
    obtain ⟨t, -, hnext⟩ := h.ending s hs
    exact .ended hnext
  | cons batch batches ih =>
    obtain ⟨t, ht, hnext⟩ := h.page batch batches s hs
    exact .page hnext (ih ht)

theorem Supplies.eq_of_givesOut {P : σ → Prop} {others : List Batch} (h : c.Supplies root P s batches)
    (hgiven : c.GivesOut root s others) : others = batches := by
  induction h generalizing others with
  | ended hnext hafter =>
    cases hgiven with
    | ended _ => rfl
    | page hother hrest => cases (hother.unique hnext).1
  | page hnext hrows hafter hrest ih =>
    cases hgiven with
    | ended hother => cases (hother.unique hnext).1
    | page hother hmore =>
      obtain ⟨hpage, rfl⟩ := hother.unique hnext
      cases hpage
      rw [ih hmore]

/-- Whether an operator that has opened gives packed pages up to the first none, if no call fails. -/
def PacksPages (c : Cursor σ) (root : TempRoot) (pageSize : Nat) : Prop :=
  ∀ s t batches, c.openUp.Gives root c.start () s → c.drain.Gives root s (batches, none) t →
    c.GivesOut root s batches ∧ Batch.ArePacked pageSize c.schema.rowSize batches

/-- An answer that hands a page on only if it is full or there are no more rows behind it. -/
def IsPacked (capacity : Nat) (More Over : σ → Prop) (answer : Except Failure (Option Batch)) (t : σ) :
    Prop :=
  ∀ page, answer = .ok page → ∃ rows : List Row, page = Batch.nonempty? ⟨capacity, rows⟩ ∧
    ((rows.length = capacity ∧ More t) ∨ (rows.length < capacity ∧ Over t))

/-- Whether an operator hands on full pages as long as there are more rows. -/
structure Packs (c : Cursor σ) (root : TempRoot) (capacity : Nat) (More Over : σ → Prop) : Prop where
  more : ∀ s, More s → c.next.Ensures root s (IsPacked capacity More Over)
  ended : ∀ s, Over s → c.next.Ensures root s fun answer _ => ∀ page, answer = .ok page → page = none

theorem Packs.eq_nil {More Over : σ → Prop} (h : c.Packs root capacity More Over) (hs : Over s)
    (hgiven : c.GivesOut root s batches) : batches = [] := by
  cases hgiven with
  | ended _ => rfl
  | page hnext hrest => cases hnext.ensured (h.ended s hs) _ rfl

theorem Packs.eq_pages {More Over : σ → Prop} (h : c.Packs root capacity More Over)
    (hc : 0 < capacity) (hs : More s) (hgiven : c.GivesOut root s batches) :
    batches = Batch.pages capacity (batches.flatMap (·.rows)) := by
  induction hgiven with
  | ended hnext => rfl
  | @page s t batch batches hnext hrest ih =>
    obtain ⟨rows, hpage, hends⟩ := hnext.ensured (h.more s hs) _ rfl
    obtain rfl : batch = ⟨capacity, rows⟩ := by
      unfold Batch.nonempty? at hpage
      split at hpage
      · cases hpage
      · exact Option.some.inj hpage
    rw [List.flatMap_cons]
    rcases hends with ⟨hlength, ht⟩ | ⟨hlength, ht⟩
    · rw [Batch.pages_cons hc hlength, ← ih ht]
    · obtain rfl := h.eq_nil ht hrest
      rw [List.flatMap_nil, List.append_nil, ← Batch.nonempty?_eq_pages hc (Nat.le_of_lt hlength),
        ← hpage]
      rfl

/-- An operator packs its pages if the calls do so once it has opened. -/
theorem packsPages_of_packs {pageSize : Nat} {More Over : σ → Prop}
    (hopen : c.openUp.Ensures root c.start fun answer s => answer = .ok () →
      0 < pageSize / c.schema.rowSize ∧ More s)
    (h : 0 < pageSize / c.schema.rowSize →
      c.Packs root (pageSize / c.schema.rowSize) More Over) : c.PacksPages root pageSize := by
  intro s t batches hopened hdrain
  obtain ⟨hc, hs⟩ := hopened.ensured hopen rfl
  have hgiven := givesOut_of_drain hdrain
  refine ⟨hgiven, ?_⟩
  rw [(h hc).eq_pages hc hs hgiven]
  exact Batch.arePacked_pages hc _

theorem packsPages_of_supplies {pageSize : Nat}
    (h : ∀ s, c.openUp.Gives root c.start () s → 0 < pageSize / c.schema.rowSize ∧
      ∃ rows P, c.Supplies root P s (Batch.pages (pageSize / c.schema.rowSize) rows)) :
    c.PacksPages root pageSize := by
  intro s t batches hopened hdrain
  obtain ⟨hc, rows, P, hsupplies⟩ := h s hopened
  have hgiven := givesOut_of_drain hdrain
  obtain rfl := hsupplies.eq_of_givesOut hgiven
  exact ⟨hgiven, Batch.arePacked_pages hc rows⟩

/-- Whether an operator gives none, however often it is asked. -/
def IsOver (c : Cursor σ) (root : TempRoot) (s : σ) : Prop :=
  ∀ n, c.events root s (List.replicate n .next) = List.replicate n (.paged (.ok none))

/-- Whether an operator gives pages with rows, and after these none forever. -/
def RunsDry (c : Cursor σ) (root : TempRoot) (s : σ) : Prop :=
  ∃ batches t, c.Yields root s batches t ∧ c.IsOver root t

theorem IsOver.exists_gives (h : c.IsOver root s) :
    ∃ t, c.IsOver root t ∧ c.next.Gives root s none t := by
  have hfirst := h 1
  simp only [List.replicate_one, events, respond, List.cons.injEq, Event.paged.injEq, and_true]
    at hfirst
  refine ⟨_, fun n => ?_, hfirst, rfl⟩
  have hmore := h (n + 1)
  rw [List.replicate_succ, List.replicate_succ] at hmore
  exact (List.cons.inj hmore).2

theorem isOver_of_step {P : σ → Prop} (hP : ∀ s, P s → ∃ t, P t ∧ c.next.Gives root s none t)
    (hs : P s) : c.IsOver root s := by
  intro n
  induction n generalizing s with
  | zero => rfl
  | succ n ih =>
    obtain ⟨t, ht, hanswer, rfl⟩ := hP s hs
    simp only [List.replicate_succ, events, respond, hanswer]
    rw [ih ht]

theorem RunsDry.ensures_next (h : c.RunsDry root s) :
    c.next.Ensures root s fun answer t => (answer = .ok none → c.IsOver root t) ∧
      ∀ batch, answer = .ok (some batch) →
        c.RunsDry root t ∧ batch.length + c.volume t < c.volume s := by
  obtain ⟨batches, u, hyields, hover⟩ := h
  cases hyields with
  | nil s =>
    obtain ⟨v, hv, hanswer, rfl⟩ := hover.exists_gives
    exact ⟨fun _ => hv, fun batch hpage => by cases hanswer.symm.trans hpage⟩
  | cons hnext hrows hrest =>
    have hcost := volume_of_gives hnext
    obtain ⟨hanswer, rfl⟩ := hnext
    refine ⟨fun hnone => (by cases hanswer.symm.trans hnone), fun batch hpage => ?_⟩
    obtain rfl := Option.some.inj (Except.ok.inj (hanswer.symm.trans hpage))
    simp only [pageCost] at hcost
    exact ⟨⟨_, u, hrest, hover⟩, by omega⟩

theorem IsPacked.mono {More Over Over' : σ → Prop} {answer : Except Failure (Option Batch)}
    (h : IsPacked capacity More Over answer t) (hover : Over t → Over' t) :
    IsPacked capacity More Over' answer t := by
  intro page hpage
  obtain ⟨rows, hrows, hends⟩ := h page hpage
  exact ⟨rows, hrows, hends.imp_right (.imp_right hover)⟩

end Cursor

section Filling

variable {σ : Type} {step : Act σ Step} {root : TempRoot} {s : σ} {size : σ → Nat}
  {More Over : σ → Prop}

/-- What a step comes to: one that brings a row or passes leaves less to do, and behind one that finds
no rows there are none. -/
def Step.IsProgress (size : σ → Nat) (More Over : σ → Prop) (s : σ) :
    Except Failure Step → σ → Prop
  | .ok .done, t => Over t
  | .ok _, t => More t ∧ size t < size s
  | .error _, _ => True

/-- Whether steps go on as long as there are more rows, and then find none. -/
structure Step.Exhausts (step : Act σ Step) (root : TempRoot) (size : σ → Nat)
    (More Over : σ → Prop) : Prop where
  more : ∀ s, More s → step.Ensures root s (Step.IsProgress size More Over s)
  ended : ∀ s, Over s → step.Ensures root s fun answer _ =>
    ∀ found, answer = .ok found → found = .done

/-- A page takes rows until it is full or a step finds no more. -/
theorem ensures_gather_of_progress
    (hstep : ∀ s, More s → step.Ensures root s (Step.IsProgress size More Over s)) (role : PageRole)
    {steps : Nat} (page : Draft) (hs : More s) (hsteps : size s < steps) :
    (gather role step steps page).Ensures root s fun answer t => ∀ batch, answer = .ok batch →
      batch.capacity = page.capacity ∧ ((batch.length = page.capacity ∧ More t) ∨
        (batch.length < page.capacity ∧ Over t)) := by
  -- Each step leaves less to do, so the steps do not run out before the page is full.
  induction steps generalizing s page with
  | zero => cases hsteps
  | succ steps ih =>
    have hfits := page.fits
    have hlength : page.batch.length = page.latest.length := List.length_reverse
    rw [gather]
    by_cases hfull : page.isFull = true
    · rw [if_pos hfull]
      refine Act.ensures_pure.mpr fun batch hbatch => ?_
      cases hbatch
      have hroom : page.room = 0 := by simpa [Draft.isFull] using hfull
      exact ⟨rfl, .inl ⟨by omega, hs⟩⟩
    · rw [if_neg hfull]
      refine (hstep s hs).bind (fun _ _ _ _ hok => by cases hok) fun found t ht => ?_
      cases found with
      | done =>
        refine Act.ensures_pure.mpr fun batch hbatch => ?_
        cases hbatch
        have hroom : page.room ≠ 0 := by simpa [Draft.isFull] using hfull
        exact ⟨rfl, .inr ⟨by omega, ht⟩⟩
      | skip => exact ih page ht.1 (by have := ht.2; omega)
      | row row =>
        dsimp only
        cases hpush : page.push? row with
        | none => exact Act.ensures_fail.mpr fun _ hok => by cases hok
        | some page' =>
          rw [← Draft.capacity_of_push? hpush]
          exact ih page' ht.1 (by have := ht.2; omega)

/-- A page that steps fill is handed on full, or with all the rows that were left. -/
theorem ensures_fillPage_of_progress
    (hstep : ∀ s, More s → step.Ensures root s (Step.IsProgress size More Over s)) (role : PageRole)
    {steps capacity : Nat} (hs : More s) (hsteps : size s < steps) :
    (fillPage role step steps capacity).Ensures root s (Cursor.IsPacked capacity More Over) := by
  cases hreserve : Draft.reserve capacity with
  | error f =>
    rw [fillPage, hreserve]
    exact fun _ hok => by cases hok
  | ok page =>
    obtain rfl := Draft.eq_empty_of_reserve hreserve
    rw [fillPage, hreserve]
    refine (ensures_gather_of_progress hstep role (.empty capacity) hs hsteps).bind
      (fun _ _ _ _ hok => by cases hok) fun batch t ht => ?_
    refine Act.ensures_pure.mpr fun page hpage => ?_
    obtain ⟨hcapacity, hends⟩ := ht batch rfl
    obtain rfl := Except.ok.inj hpage
    obtain ⟨_, rows⟩ := batch
    obtain rfl := hcapacity
    exact ⟨rows, rfl, hends⟩

theorem Step.Exhausts.ensures_gather_of_over (h : Step.Exhausts step root size More Over)
    (role : PageRole) (steps : Nat) (page : Draft) (hs : Over s) :
    (gather role step steps page).Ensures root s fun answer _ => ∀ batch, answer = .ok batch →
      batch = page.batch := by
  cases steps with
  | zero => exact fun _ hbatch => (Except.ok.inj hbatch).symm
  | succ steps =>
    rw [gather]
    split
    · exact fun _ hbatch => (Except.ok.inj hbatch).symm
    · refine (h.ended s hs).bind (fun _ _ _ _ hok => by cases hok) fun found t ht => ?_
      obtain rfl := ht found rfl
      exact fun _ hbatch => (Except.ok.inj hbatch).symm

theorem Step.Exhausts.ensures_fillPage_of_over (h : Step.Exhausts step root size More Over)
    (role : PageRole) (steps capacity : Nat) (hs : Over s) :
    (fillPage role step steps capacity).Ensures root s fun answer _ =>
      ∀ page, answer = .ok page → page = none := by
  cases hreserve : Draft.reserve capacity with
  | error f =>
    rw [fillPage, hreserve]
    exact fun _ hok => by cases hok
  | ok page =>
    obtain rfl := Draft.eq_empty_of_reserve hreserve
    rw [fillPage, hreserve]
    refine (h.ensures_gather_of_over role steps (.empty capacity) hs).bind
      (fun _ _ _ _ hok => by cases hok) fun batch t ht => ?_
    refine Act.ensures_pure.mpr fun page hpage => ?_
    obtain rfl := ht batch rfl
    exact (Except.ok.inj hpage).symm

end Filling
end PagedQuery
