import PagedQuery.Proofs.PackedPages
import PagedQuery.Proofs.PageMachine
import PagedQuery.Proofs.SpooledRows

namespace PagedQuery
namespace Aggregate

variable {σ : Type} {child : Cursor σ} {root : TempRoot} {below : Feed} {p : Standing σ}
  {schema : Schema} {columns : List AggregateColumn} {capacity : Nat} {s t : State σ}
  {pages : List Batch} {rows : List Row} {intake : Intake}

/-- The output rows of the rows of the child, on pages. -/
def feed (pageSize : Nat) (columns : List AggregateColumn) (schema : Schema) (root : TempRoot)
    (below : Feed) : Feed := do
  let _ ← Failure.ofExcept (checkTypes schema columns)
  let capacity ← (outputSchema columns schema).pageCapacity pageSize
  let spoolCapacity ← schema.pageCapacity pageSize
  let pages ← below
  let ts ← ending columns spoolCapacity root (pages.flatMap (·.rows))
  pure (Batch.pages capacity (outputRows columns ts (pages.flatMap (·.rows))))

theorem gives_onChild {α : Type} {x : Act σ α} {a : α} {c : σ} (hx : x.Gives root s.child a c) :
    (onChild x).Gives root s a { s with child := c } :=
  hx.within

theorem gives_onFolder {α : Type} {x : Act (Option Folder) α} {a : α} {folder : Option Folder}
    (hx : x.Gives root s.folder a folder) : (onFolder x).Gives root s a { s with folder } :=
  hx.within

theorem failsIn_onFolder {α : Type} {x : Act (Option Folder) α} {f : Failure}
    {P : Option Folder → Prop} (hx : x.FailsIn root s.folder f P) :
    (onFolder x : Act (State σ) α).FailsIn root s f fun t => ∃ folder, P folder ∧
      t = { s with folder } :=
  hx.within

/-- The rows of the child's pages are taken one after the other. -/
theorem takePages_spec (hpossible : ∀ c, p.Possible c → child.next.Ensures root c fun _ => p.Possible)
    (intake : Intake) (hs : p.Possible s.child) (hgiven : child.GivesOut root s.child pages)
    {steps : Nat} (hsteps : pages.length < steps) :
    ((pages.flatMap (·.rows)).foldlM Intake.takeRow intake).Ensures root s.folder fun answer folder =>
      ∃ c, p.Possible c ∧ (takePages child steps intake).Ensures root s fun answer' t =>
        answer' = answer ∧ t = { s with child := c, folder } := by
  induction pages generalizing s intake steps with
  | nil =>
    obtain ⟨steps, rfl⟩ : ∃ n, steps = n + 1 := ⟨steps - 1, by omega⟩
    cases hgiven with
    | @ended _ c hnext =>
      exact ⟨c, hnext.ensured (hpossible _ hs), (gives_onChild hnext).bind Act.gives_pure⟩
  | cons batch pages ih =>
    rw [List.length_cons] at hsteps
    obtain ⟨steps, rfl⟩ : ∃ n, steps = n + 1 := ⟨steps - 1, by omega⟩
    obtain ⟨c, hnext, hrest⟩ : ∃ c, child.next.Gives root s.child (some batch) c ∧
        child.GivesOut root c pages := by
      cases hgiven with
      | page hnext hrest => exact ⟨_, hnext, hrest⟩
    have hc := hnext.ensured (hpossible _ hs)
    let fetched : State σ := { s with child := c }
    rw [List.flatMap_cons, List.foldlM_append]
    rcases Act.gives_or_fails (batch.rows.foldlM Intake.takeRow intake) root s.folder with
      ⟨intake', folder, hbatch⟩ | ⟨f, hbatch⟩
    · have hmore := ih (s := { fetched with folder }) intake' hc hrest
        (by omega : pages.length < steps)
      refine hbatch.bind_ensures (Act.Ensures.mono hmore ?_)
      rintro answer folder' ⟨d, hd, hpages⟩
      exact ⟨d, hd, (gives_onChild hnext).bind_ensures
        ((gives_onFolder (s := fetched) hbatch).bind_ensures hpages)⟩
    · have hstays : (batch.rows.foldlM Intake.takeRow intake).FailsIn root s.folder f
          (· = ((batch.rows.foldlM Intake.takeRow intake).run root s.folder).state) := ⟨hbatch, rfl⟩
      refine hstays.bind.ensures ?_
      rintro _ rfl
      refine ⟨c, hc, (gives_onChild hnext).bind_failsIn (Act.FailsIn.bind ?_)⟩
      refine (failsIn_onFolder (s := fetched) hstays).mono ?_
      rintro _ ⟨folder, rfl, rfl⟩
      rfl

/-- Whether the rows have been taken in, and the spool is ready to be read if there is one. -/
structure IsReady (columns : List AggregateColumn) (capacity : Nat) (rows : List Row)
    (ts : List Tally) (s t : State σ) : Prop where
  frame : t = { s with
    child := t.child
    folder := t.folder
    spool := t.spool
    results := ts.map (·.result)
    inputCount := rows.length }
  reads : isPure columns = false →
    ∃ reader, t.spool = some reader ∧ reader.HandsOut (Batch.pages capacity rows)

def storeIntake (capacity : Nat) (intake : Intake) : Act (State σ) Unit := do
  match intake.spool with
  | none => pure ()
  | some spool =>
    let reader ← onFolder (RunFile.inFolder (finishSpool capacity spool))
    modify fun s => { s with spool := some reader }
  modify fun s => { s with results := intake.tallies.map (·.result), inputCount := intake.count }

/-- What has been taken in can be read, or its spool cannot be finished. -/
theorem storeIntake_spec (hc : 0 < capacity) (hs : p.Possible s.child)
    (htaken : intake.HasTaken columns capacity root rows s.folder) :
    (∃ t folder, p.Possible t.child ∧ IsReady columns capacity rows intake.tallies s t ∧
      (storeIntake capacity intake).Gives root s () t ∧
      (endIntake capacity intake).Gives root s.folder intake.tallies folder) ∨
    ∃ f, (storeIntake capacity intake).FailsIn root s f
        (fun t => t.isOpen = s.isOpen ∧ p.Possible t.child) ∧
      (endIntake capacity intake).Fails root s.folder f := by
  obtain ⟨-, hcount, hspools⟩ := htaken
  unfold storeIntake endIntake
  generalize hfolder : s.folder = folder at hspools
  cases hnow : intake.spool with
  | none =>
    rw [hnow] at hspools
    cases hspools with
    | nowhere hpure =>
      let ended : State σ :=
        { s with results := intake.tallies.map (·.result), inputCount := intake.count }
      refine .inl ⟨ended, _, hs, ⟨hcount ▸ rfl, fun hmixed => ?_⟩, Act.gives_modify _, Act.gives_pure⟩
      cases hpure.symm.trans hmixed
  | some spool =>
    rw [hnow] at hspools
    cases hspools with
    | @into base written _ _ _ hspool =>
      rcases finishSpool_cases hc hspool with ⟨content, reader, -, hfinish, hreads⟩ | ⟨e, -, hfinish⟩
      · have hread := RunFile.gives_inFolder hfinish
        rw [← hfolder] at hread ⊢
        let stored : State σ :=
          { s with folder := some (base.put spoolFile content), spool := some reader }
        let ended : State σ :=
          { stored with results := intake.tallies.map (·.result), inputCount := intake.count }
        exact .inl ⟨ended, _, hs, ⟨hcount ▸ rfl, fun _ => ⟨reader, rfl, hreads⟩⟩,
          (gives_onFolder hread).bind ((Act.gives_modify _).bind (Act.gives_modify _)),
          hread.bind Act.gives_pure⟩
      · have hfails := RunFile.fails_inFolder hfinish
        rw [← hfolder] at hfails ⊢
        refine .inr ⟨_, (failsIn_onFolder hfails.failsIn).bind.mono ?_, hfails.bind⟩
        rintro _ ⟨folder, -, rfl⟩
        exact ⟨rfl, hs⟩

/-- Taking the rows of the child in ends as it does for these rows. -/
theorem consume_spec (columns : List AggregateColumn)
    (hpossible : ∀ c, p.Possible c → child.next.Ensures root c fun _ => p.Possible)
    (hs : p.Possible s.child) (hgiven : child.GivesOut root s.child pages) (hc : 0 < capacity) :
    match ending columns capacity root (pages.flatMap (·.rows)) with
    | .ok ts => tally columns (pages.flatMap (·.rows)) = .ok ts ∧
        ∃ t, p.Possible t.child ∧ IsReady columns capacity (pages.flatMap (·.rows)) ts s t ∧
          (consume columns child capacity).Gives root s () t
    | .error f => (consume columns child capacity).FailsIn root s f
        fun t => t.isOpen = s.isOpen ∧ p.Possible t.child := by
  have hsteps : pages.length < child.volume s.child + 1 :=
    Nat.lt_succ_of_le hgiven.length_le_volume
  rcases Act.gives_or_fails (startSpool columns) root s.folder with
    ⟨writer, folder, hstart⟩ | ⟨f, hstart⟩
  swap
  · rw [ending_of_fails hstart.bind]
    refine (failsIn_onFolder hstart.failsIn).bind.mono ?_
    rintro _ ⟨folder, -, rfl⟩
    exact ⟨rfl, hs⟩
  let begun : State σ := { s with folder }
  have hbegun : (onFolder (startSpool columns)).Gives root s writer begun := gives_onFolder hstart
  cases hreserve : Draft.reserve capacity with
  | error f =>
    have hnone {τ : Type} {u : τ} : (Act.ofAnswer (Draft.reserve capacity)).FailsIn root u f
        (· = u) := Act.failsIn_ofAnswer hreserve rfl
    rw [ending_of_fails (hstart.bind_fails hnone.bind.fails)]
    refine hbegun.bind_failsIn (hnone.bind.mono ?_)
    rintro _ rfl
    exact ⟨rfl, hs⟩
  | ok page =>
    obtain rfl := Draft.eq_empty_of_reserve hreserve
    have hempty := (attains_startSpool columns capacity root s.folder).of_gives hstart
    have hreserved {τ : Type} {u : τ} : (Act.ofAnswer (Draft.reserve capacity)).Gives root u
        (.empty capacity) u := Act.gives_ofAnswer hreserve
    let intake₀ : Intake := ⟨tallies columns, 0, writer.map (⟨.empty capacity, ·⟩)⟩
    have hprefix {post : Except Failure Unit → State σ → Prop}
        (hrest : (takePages child (child.volume s.child + 1) intake₀ >>=
          storeIntake capacity).Ensures root begun post) :
        (consume columns child capacity).Ensures root s post :=
      hbegun.bind_ensures (hreserved.bind_ensures (Act.ensures_get_bind.mpr hrest))
    have hpages := takePages_spec (s := begun) hpossible intake₀ hs hgiven hsteps
    rcases Act.gives_or_fails ((pages.flatMap (·.rows)).foldlM Intake.takeRow intake₀) root folder with
      ⟨intake, folder', htake⟩ | ⟨f, htake⟩
    · obtain ⟨c, hc', hpages⟩ := htake.ensured hpages
      let taken : State σ := { begun with child := c, folder := folder' }
      have hpages : (takePages child (child.volume s.child + 1) intake₀).Gives root begun intake
        taken := hpages
      have htaken := (hempty.takeRows (pages.flatMap (·.rows))).of_gives htake
      rw [List.nil_append] at htaken
      rcases storeIntake_spec (s := taken) hc hc' htaken with
        ⟨t, folder'', ht, hready, hstore, hend⟩ | ⟨f, hstore, hend⟩
      · rw [ending_of_gives (hstart.bind (hreserved.bind (htake.bind hend)))]
        exact ⟨htaken.tallies, t, ht, ⟨hready.frame, hready.reads⟩, hprefix (hpages.bind hstore)⟩
      · rw [ending_of_fails (hstart.bind_fails (hreserved.bind_fails (htake.bind_fails hend)))]
        exact hprefix (hpages.bind_failsIn hstore)
    · rw [ending_of_fails (hstart.bind_fails (hreserved.bind_fails htake.bind))]
      have hstays : ((pages.flatMap (·.rows)).foldlM Intake.takeRow intake₀).FailsIn root folder f
          (· = (((pages.flatMap (·.rows)).foldlM Intake.takeRow intake₀).run root folder).state) :=
        ⟨htake, rfl⟩
      obtain ⟨c, hc', hpages⟩ := hstays.ensured hpages
      refine hprefix (Act.FailsIn.bind (Act.Ensures.mono hpages ?_))
      rintro _ _ ⟨rfl, rfl⟩
      exact ⟨rfl, rfl, hc'⟩

/-- What all steps of an open aggregation leave as it is. -/
structure IsServing (p : Standing σ) (capacity : Nat) (results : List Field) (s : State σ) :
    Prop where
  isOpen : s.isOpen = true
  capacity : s.capacity = capacity
  child : p.Possible s.child
  results : s.results = results
  hasInput : s.inputCount ≠ 0

/-- What an aggregation without plain columns still has to bring: its row, unless it has been given. -/
def BringsOne (p : Standing σ) (columns : List AggregateColumn) (capacity : Nat)
    (results : List Field) (n : Nat) (s : State σ) (rows : List Row) : Prop :=
  IsServing p capacity results s ∧ n = rows.length ∧
    rows = if s.isEmitted then [] else [rowOf [] columns results]

/-- What an aggregation with plain columns still has to bring: a row for each pending row and for each
row that is left of the spool. -/
def BringsEach (p : Standing σ) (columns : List AggregateColumn) (capacity : Nat)
    (results : List Field) (n : Nat) (s : State σ) (rows : List Row) : Prop :=
  IsServing p capacity results s ∧ ∃ reader pages, s.spool = some reader ∧ reader.HandsOut pages ∧
    n = s.pending.length + total (fun page : Batch => page.length + 1) pages ∧
    rows = (s.pending ++ pages.flatMap (·.rows)).map (rowOf · columns results) ∧
    ∀ row ∈ s.pending ++ pages.flatMap (·.rows), ∀ position, .plain position ∈ columns →
      position < row.length

theorem keeps_pureStep {results : List Field} (hpure : isPure columns = true)
    (hresults : results.length = (columns.filterMap label?).length) :
    Step.Keeps (pureStep columns) root (BringsOne p columns capacity results) := by
  rintro n s rows ⟨hserving, rfl, rfl⟩
  cases hemitted : s.isEmitted with
  | true =>
    refine .inl ⟨0, s, rfl, ?_, hserving, rfl, by rw [hemitted]; rfl⟩
    apply Act.gives_get_bind.mpr
    rw [if_pos hemitted]
    exact Act.gives_pure
  | false =>
    have hrow : outputRow none columns s.results = .ok (rowOf [] columns results) := by
      rw [hserving.results]
      refine outputRow_eq (fun position hposition => ?_) hresults
      cases List.all_eq_true.mp hpure _ hposition
    let given : State σ := { s with isEmitted := true }
    refine .inr (.inr ⟨0, given, _, [], Nat.zero_lt_one, rfl, ?_,
      ⟨hserving.isOpen, hserving.capacity, hserving.child, hserving.results, hserving.hasInput⟩,
      rfl, rfl⟩)
    apply Act.gives_get_bind.mpr
    rw [if_neg (by simp [hemitted])]
    exact Act.gives_set.bind ((Act.gives_ofExcept hrow).bind Act.gives_pure)

theorem gives_nextSpooled {reader reader' : RunFile.Reader} {answer : Option Batch}
    (hspool : s.spool = some reader) (hnext : reader.next = (.ok answer, reader')) :
    nextSpooled.Gives root s answer { s with spool := some reader' } := by
  apply Act.gives_get_bind.mpr
  rw [hspool]
  simp only [hnext]
  exact Act.gives_set.bind (Act.gives_ofExcept rfl)

theorem keeps_mixedStep {results : List Field}
    (hresults : results.length = (columns.filterMap label?).length) :
    Step.Keeps (mixedStep columns) root (BringsEach p columns capacity results) := by
  rintro n s rows ⟨hserving, reader, pages, hspool, hreads, rfl, rfl, hplain⟩
  have hkeep {t : State σ} (h : t = { s with spool := t.spool, pending := t.pending }) :
      IsServing p capacity results t := by
    rw [h]
    exact ⟨hserving.isOpen, hserving.capacity, hserving.child, hserving.results, hserving.hasInput⟩
  cases hpending : s.pending with
  | cons row pending =>
    rw [hpending, List.cons_append, List.forall_mem_cons] at hplain
    have hrow : outputRow (some row) columns s.results = .ok (rowOf row columns results) := by
      rw [hserving.results]
      exact outputRow_eq (fun position hposition => ⟨row, rfl, hplain.1 position hposition⟩) hresults
    let passed : State σ := { s with pending }
    refine .inr (.inr ⟨pending.length + total (fun page : Batch => page.length + 1) pages, passed, _,
      _, ?_, rfl, ?_, hkeep rfl, reader, pages, hspool, hreads, rfl, rfl, hplain.2⟩)
    · rw [List.length_cons]
      omega
    · apply Act.gives_get_bind.mpr
      rw [hpending]
      exact Act.gives_set.bind ((Act.gives_ofExcept hrow).bind Act.gives_pure)
  | nil =>
    rw [hpending, List.nil_append] at hplain
    cases pages with
    | nil =>
      obtain ⟨reader', hnext, hdone⟩ := hreads.next_end
      let ended : State σ := { s with spool := some reader' }
      have hnone : ended.pending = [] := hpending
      refine .inl ⟨0, ended, rfl, ?_, hkeep rfl, reader', [], rfl, hdone, ?_, ?_, ?_⟩
      · apply Act.gives_get_bind.mpr
        rw [hpending]
        exact (gives_nextSpooled hspool hnext).bind Act.gives_pure
      · rw [hnone]
        rfl
      · rw [hnone]
        rfl
      · rwa [hnone]
    | cons batch pages =>
      obtain ⟨reader', hnext, -, hrest⟩ := hreads.next_batch
      let passed : State σ := { s with spool := some reader', pending := batch.rows }
      refine .inr (.inl ⟨batch.length + total (fun page : Batch => page.length + 1) pages, passed, ?_,
        ?_, hkeep rfl, reader', pages, rfl, hrest, rfl, ?_, ?_⟩)
      · rw [List.length_nil, total_cons]
        omega
      · apply Act.gives_get_bind.mpr
        rw [hpending]
        have hread : nextSpooled.Gives root s _ _ := gives_nextSpooled hspool hnext
        exact hread.bind ((Act.gives_modify _).bind Act.gives_pure)
      · rw [List.nil_append, List.flatMap_cons]
      · rwa [List.flatMap_cons] at hplain

/-- What an open aggregation still has to bring. Without input it is nothing. -/
inductive Brings (p : Standing σ) (columns : List AggregateColumn) (capacity : Nat) :
    Nat → State σ → List Row → Prop
  | nothing {s : State σ} (hopen : s.isOpen = true) (hchild : p.Possible s.child)
      (hinput : s.inputCount = 0) : Brings p columns capacity 0 s []
  | one {n : Nat} {s : State σ} {rows : List Row} {results : List Field}
      (hpure : isPure columns = true)
      (hresults : results.length = (columns.filterMap label?).length)
      (h : BringsOne p columns capacity results n s rows) : Brings p columns capacity n s rows
  | each {n : Nat} {s : State σ} {rows : List Row} {results : List Field}
      (hmixed : isPure columns = false)
      (hresults : results.length = (columns.filterMap label?).length)
      (h : BringsEach p columns capacity results n s rows) : Brings p columns capacity n s rows

theorem Brings.isOpen {n : Nat} (h : Brings p columns capacity n s rows) : s.isOpen = true := by
  cases h with
  | nothing hopen => exact hopen
  | one _ _ h => exact h.1.isOpen
  | each _ _ h => exact h.1.isOpen

theorem Brings.possible {n : Nat} (h : Brings p columns capacity n s rows) : p.Possible s.child := by
  cases h with
  | nothing _ hchild => exact hchild
  | one _ _ h => exact h.1.child
  | each _ _ h => exact h.1.child

theorem fills (pageSize : Nat) (columns : List AggregateColumn) (child : Cursor σ) (root : TempRoot)
    (p : Standing σ) (hmemory : fitsMemory capacity Batch.rowRoom = true) :
    (cursor pageSize columns child).Fills root capacity (Brings p columns capacity) := by
  -- With input, the next page is filled by the steps of the query's kind.
  have hserved {results : List Field} {s : State σ} {answer : Option Batch} {t : State σ}
      (hs : IsServing p capacity results s)
      (hfill : (fillPage .aggregateOutput (step columns) (spooledVolume s + 2) capacity).Gives root s
        answer t) : (cursor pageSize columns child).next.Gives root s answer t := by
    apply Act.gives_get_bind.mpr
    rw [if_neg (by simp [hs.isOpen]), if_neg hs.hasInput, hs.capacity]
    exact hfill
  intro n s rows hs
  cases hs with
  | nothing hopen hchild hinput =>
    refine ⟨0, s, ?_, Act.gives_get_bind.mpr ?_⟩
    · rw [List.drop_nil]
      exact .nothing hopen hchild hinput
    rw [if_neg (by simp [hopen]), if_pos hinput, List.take_nil]
    exact Act.gives_pure
  | @one _ _ _ results hpure hresults h =>
    have hkeeps : Step.Keeps (step columns) root (BringsOne p columns capacity results) := by
      rw [step, if_pos hpure]
      exact keeps_pureStep hpure hresults
    have hsteps : n < spooledVolume s + 2 := by
      obtain ⟨-, rfl, rfl⟩ := h
      split
      · exact Nat.succ_pos _
      · exact Nat.lt_add_left _ (Nat.lt_succ_self 1)
    obtain ⟨m, t, ht, hfill⟩ := exists_gives_fillPage hkeeps .aggregateOutput hmemory h hsteps
    exact ⟨m, t, .one hpure hresults ht, hserved h.1 hfill⟩
  | @each _ _ _ results hmixed hresults h =>
    have hkeeps : Step.Keeps (step columns) root (BringsEach p columns capacity results) := by
      rw [step, if_neg (by simp [hmixed])]
      exact keeps_mixedStep hresults
    have hsteps : n < spooledVolume s + 2 := by
      obtain ⟨-, reader, pages, hspool, hreads, rfl, -⟩ := h
      have hvolume := hreads.total_le
      rw [spooledVolume, hspool, Option.elim]
      omega
    obtain ⟨m, t, ht, hfill⟩ := exists_gives_fillPage hkeeps .aggregateOutput hmemory h hsteps
    exact ⟨m, t, .each hmixed hresults ht, hserved h.1 hfill⟩

def standing (p : Standing σ) (columns : List AggregateColumn) (capacity : Nat) :
    Standing (State σ) where
  closed s := s.isOpen = false ∧ s.pending = [] ∧ p.closed s.child
  failed s := s.isOpen = false ∧ s.pending = [] ∧ p.Possible s.child
  before := FillsPages (Brings p columns capacity) capacity

/-- Once all rows have been taken in, an aggregation stands before its output rows. -/
theorem brings_outputRows {spoolCapacity : Nat} {ts : List Tally}
    (hready : IsReady columns spoolCapacity rows ts s t) (hchild : p.Possible t.child)
    (hcapacity : s.capacity = capacity) (hc : 0 < spoolCapacity)
    (hlabels : ts.map Tally.label = columns.filterMap label?)
    (hmixed : isPure columns = false → s.pending = [] ∧
      ∀ row ∈ rows, ∀ position, .plain position ∈ columns → position < row.length) :
    ∃ n, Brings p columns capacity n { t with isEmitted := false, isOpen := true }
      (outputRows columns ts rows) := by
  have hresults : (ts.map (·.result)).length = (columns.filterMap label?).length := by
    rw [List.length_map, ← hlabels, List.length_map]
  have hcount : t.inputCount = rows.length := by rw [hready.frame]
  unfold outputRows
  by_cases hempty : rows = []
  · rw [if_pos hempty]
    subst hempty
    exact ⟨0, .nothing rfl hchild hcount⟩
  · rw [if_neg hempty]
    have hserving : IsServing p capacity (ts.map (·.result))
        { t with isEmitted := false, isOpen := true } := by
      refine ⟨rfl, ?_, hchild, ?_, ?_⟩
      · change t.capacity = capacity
        rw [hready.frame, hcapacity]
      · change t.results = _
        rw [hready.frame]
      · change t.inputCount ≠ 0
        rw [hcount]
        exact fun hzero => hempty (List.length_eq_zero_iff.mp hzero)
    by_cases hpure : isPure columns = true
    · rw [if_pos hpure]
      exact ⟨1, .one hpure hresults ⟨hserving, rfl, rfl⟩⟩
    · rw [if_neg hpure]
      have hnot : isPure columns = false := Bool.eq_false_iff.mpr hpure
      obtain ⟨hpending, hplain⟩ := hmixed hnot
      obtain ⟨reader, hreader, hreads⟩ := hready.reads hnot
      have hpending' : t.pending = [] := by rw [hready.frame, hpending]
      refine ⟨_, .each hnot hresults ⟨hserving, reader, _, hreader, hreads, rfl, ?_, ?_⟩⟩
      · dsimp only
        rw [hpending', List.nil_append, Batch.flatMap_rows_pages hc]
      · dsimp only
        rwa [hpending', List.nil_append, Batch.flatMap_rows_pages hc]

def serveInput (columns : List AggregateColumn) (child : Cursor σ) (spoolCapacity : Nat) :
    Act (State σ) Unit := do
  match ← Act.attempt (consume columns child spoolCapacity) with
  | .ok () => modify fun s => { s with isEmitted := false, isOpen := true }
  | .error f =>
    release
    Act.abandon f

/-- Once the child is open, an aggregation opens before the output rows of the rows it takes in. -/
theorem opens_serveInput
    (hpossible : ∀ c, p.Possible c → child.next.Ensures root c fun _ => p.Possible)
    (hs : p.Possible s.child) (hgiven : child.GivesOut root s.child pages)
    (hclosed : s.isOpen = false) (hc : 0 < s.capacity) {spoolCapacity : Nat}
    (hspool : 0 < spoolCapacity)
    (hmixed : isPure columns = false → s.pending = [] ∧
      ∀ row ∈ pages.flatMap (·.rows), ∀ position, .plain position ∈ columns →
        position < row.length) :
    (serveInput columns child spoolCapacity).Opens root s
      (do
        let ts ← ending columns spoolCapacity root (pages.flatMap (·.rows))
        pure (Batch.pages s.capacity (outputRows columns ts (pages.flatMap (·.rows)))))
      (FillsPages (Brings p columns s.capacity) s.capacity)
      fun t => t.isOpen = false ∧ t.pending = [] ∧ p.Possible t.child := by
  have hconsume := consume_spec columns hpossible hs hgiven hspool
  cases hending : ending columns spoolCapacity root (pages.flatMap (·.rows)) with
  | ok ts =>
    rw [hending] at hconsume
    obtain ⟨htally, t, ht, hready, hgives⟩ := hconsume
    obtain ⟨n, hbrings⟩ := brings_outputRows hready ht rfl hspool (map_label_of_tally htally) hmixed
    exact ⟨_, ⟨hc, n, _, hbrings, rfl⟩, hgives.attempt.bind (Act.gives_modify _)⟩
  | error f =>
    rw [hending] at hconsume
    obtain ⟨t, ⟨hopen, ht⟩, hattempt⟩ := hconsume.exists_attempt
    refine hattempt.bind_failsIn ((Act.gives_modify _).bind_failsIn ⟨rfl, ?_, rfl, ht⟩)
    exact hopen.trans hclosed

/-- An aggregation hands out the output rows of the rows of its child. -/
theorem follows (pageSize : Nat) (h : child.Follows root below p)
    (hwithin : ∀ column ∈ columns, column.position < child.schema.length)
    (hrows : ∀ pages, below = .ok pages → ∀ row ∈ pages.flatMap (·.rows), row.Conforms child.schema)
    (hmemory : fitsMemory (pageSize / (outputSchema columns child.schema).rowSize)
      Batch.rowRoom = true) :
    (cursor pageSize columns child).Follows root (feed pageSize columns child.schema root below)
      (standing p columns (pageSize / (outputSchema columns child.schema).rowSize)) where
  start := ⟨rfl, rfl, h.start⟩
  openUp := by
    rintro s ⟨hclosed, hpending, hchild⟩
    apply Act.opens_get_bind.mpr
    rw [if_neg (by simp [hclosed])]
    have hfailed : (standing p columns
        (pageSize / (outputSchema columns child.schema).rowSize)).failed s :=
      ⟨hclosed, hpending, .inl hchild⟩
    refine Act.opens_ofExcept_bind hfailed fun _ htypes => ?_
    refine Act.opens_ofAnswer_bind hfailed fun capacity hcapacity => ?_
    refine Act.opens_ofAnswer_bind hfailed fun spoolCapacity hspool => ?_
    obtain ⟨rfl, hroom⟩ := Schema.of_pageCapacity hcapacity
    apply (Act.gives_modify _).bind_opens
    refine Act.Opens.within_bind (h.openUp s.child hchild)
      (fun c hc => ⟨hclosed, hpending, .inr (.inl hc)⟩) fun pages c hbelow hc => ?_
    let begun : State σ :=
      { s with child := c, capacity := pageSize / (outputSchema columns child.schema).rowSize }
    exact opens_serveInput (s := begun) (fun _ => h.ensures_next_possible) (.inr (.inr ⟨pages, hc⟩))
      (h.handsPages.givesOut hc) hclosed hroom (Schema.of_pageCapacity hspool).2
      fun _ => ⟨hpending, reaches_of_conforms (isColumnOf_of_checkTypes hwithin htypes)
        (hrows pages hbelow)⟩
  reopen _ s := by
    rintro ⟨-, _, _, hs, -⟩
    exact Act.gives_unless_isOpen State.isOpen hs.isOpen
  page _ _ _ hs := (fills pageSize columns child root p hmemory).exists_gives_page hs
  ending _ hs := (fills pageSize columns child root p hmemory).exists_gives_none hs
  refuse := by
    rintro s (⟨hclosed, -⟩ | ⟨hclosed, -⟩)
    all_goals
      refine Act.ensures_get_bind.mpr ?_
      rw [if_pos (by simp [hclosed])]
      exact ⟨rfl, rfl⟩
  close := by
    intro s hs
    have hchild : p.Possible s.child := by
      rcases hs with ⟨-, -, hs⟩ | ⟨-, -, hs⟩ | ⟨pages, -, _, _, hs, -⟩
      · exact .inl hs
      · exact hs
      · exact hs.possible
    obtain ⟨c, hc, hclose⟩ := h.close s.child hchild
    let released : State σ :=
      { s with folder := none, spool := none, pending := [], results := [] }
    let emptied : State σ := { released with inputCount := 0, isEmitted := false, isOpen := false }
    have hcloses : (onChild child.close).Gives root emptied () { emptied with child := c } :=
      gives_onChild hclose
    exact ⟨{ emptied with child := c }, ⟨rfl, rfl, hc⟩,
      (Act.gives_modify _).bind ((Act.gives_modify _).bind hcloses)⟩
  nonempty _ _ hs := hs.rows_ne_nil

end Aggregate
end PagedQuery
