import PagedQuery.Operator.RowSource
import PagedQuery.Operator.Project
import PagedQuery.Operator.Distinct
import PagedQuery.Proofs.PageFilling
import PagedQuery.Proofs.PageMachine
import PagedQuery.Proofs.SortOpening
import PagedQuery.Proofs.TypedRows

namespace PagedQuery

namespace RowSource

def feed (pageSize : Nat) (schema : Schema) (rows : List Row) : Feed := do
  let capacity ← schema.pageCapacity pageSize
  pure (Batch.pages capacity rows)

def standing : Standing State where
  closed s := s = none
  failed s := s = none
  before pages s := s = some pages ∧ ∀ batch ∈ pages, batch.rows ≠ []

theorem follows (pageSize : Nat) (schema : Schema) (rows : List Row) (root : TempRoot) :
    (cursor pageSize schema rows).Follows root (feed pageSize schema rows) standing where
  start := rfl
  openUp := by
    rintro s rfl
    apply (Act.gives_get_bind (f := pure) |>.mpr Act.gives_pure).bind_opens
    refine Act.opens_ofAnswer_bind rfl fun capacity hcapacity => ⟨_, ⟨rfl, ?_⟩, Act.gives_set⟩
    exact Batch.rows_ne_nil_of_mem_pages (Schema.of_pageCapacity hcapacity).2
  reopen := by
    rintro pages s ⟨rfl, -⟩
    exact ⟨rfl, rfl⟩
  page := by
    rintro batch pages s ⟨rfl, hrows⟩
    exact ⟨some pages, ⟨rfl, (List.forall_mem_cons.mp hrows).2⟩, rfl, rfl⟩
  ending := by
    rintro s ⟨rfl, hrows⟩
    exact ⟨some [], ⟨rfl, hrows⟩, rfl, rfl⟩
  refuse := by
    rintro s (rfl | rfl)
    · exact ⟨rfl, rfl⟩
    · exact ⟨rfl, rfl⟩
  close _ _ := ⟨none, rfl, rfl, rfl⟩
  nonempty := fun _ _ h => h.2

end RowSource

namespace Project

variable {σ : Type} {child : Cursor σ} {root : TempRoot} {below : Feed} {p : Standing σ}
  {fields : List Nat} {capacity : Nat}

def feed (pageSize : Nat) (fields : List Nat) (schema : Schema) (below : Feed) : Feed := do
  let capacity ← (outputSchema fields schema).pageCapacity pageSize
  let pages ← below
  pure (Batch.pages capacity ((pages.flatMap (·.rows)).map (Row.keyOf fields)))

structure Brings (p : Standing σ) (fields : List Nat) (capacity : Nat) (n : Nat) (s : State σ)
    (rows : List Row) : Prop where
  isOpen : s.isOpen = true
  capacity : s.capacity = capacity
  exists_pages : ∃ pages, p.before pages s.child ∧
    (∀ row ∈ pages.flatMap (·.rows), Row.HasKey fields row) ∧
    rows = s.pending ++ (pages.flatMap (·.rows)).map (Row.keyOf fields) ∧
    n = s.pending.length + total (fun page : Batch => page.length + 1) pages

theorem Brings.possible {n : Nat} {s : State σ} {rows : List Row}
    (h : Brings p fields capacity n s rows) : p.Possible s.child := by
  obtain ⟨pages, hchild, -⟩ := h.exists_pages
  exact .inr (.inr ⟨pages, hchild⟩)

def standing (p : Standing σ) (fields : List Nat) (capacity : Nat) : Standing (State σ) where
  closed s := s.isOpen = false ∧ p.closed s.child
  failed s := s.isOpen = false ∧ p.Possible s.child
  before := FillsPages (Brings p fields capacity) capacity

theorem gives_onChild {α : Type} {x : Act σ α} {a : α} {s : State σ} {c : σ}
    (hx : x.Gives root s.child a c) : (onChild x).Gives root s a { s with child := c } :=
  hx.within

theorem lt_of_validate {schema : Schema} (h : validate fields schema = .ok ()) :
    ∀ i ∈ fields, i < schema.length := by
  unfold validate at h
  split at h
  · cases h
  · split at h
    · cases h
    · next hfind => exact Schema.lt_length_of_find? hfind

theorem mapM_project?_of_hasKey {rows : List Row} (h : ∀ row ∈ rows, Row.HasKey fields row) :
    rows.mapM (Row.project? · fields) = some (rows.map (Row.keyOf fields)) := by
  induction rows with
  | nil => rfl
  | cons row rows ih =>
    rw [List.forall_mem_cons] at h
    rw [List.mapM_cons, Row.project?_of_hasKey h.1, ih h.2]
    rfl

theorem keeps_step (h : child.Follows root below p) (fields : List Nat) (capacity : Nat) :
    Step.Keeps (step fields child) root (Brings p fields capacity) := by
  rintro n s rows ⟨hopen, hcapacity, pages, hchild, hkeys, rfl, rfl⟩
  cases hpending : s.pending with
  | cons row pending =>
    let passed : State σ := { s with pending }
    refine .inr (.inr ⟨pending.length + total (fun page : Batch => page.length + 1) pages, passed,
      row, _, ?_, rfl, ?_, hopen, hcapacity, pages, hchild, hkeys, rfl, rfl⟩)
    · rw [List.length_cons]
      omega
    · apply Act.gives_get_bind.mpr
      rw [hpending]
      exact Act.gives_set.bind Act.gives_pure
  | nil =>
    cases pages with
    | nil =>
      obtain ⟨c, hc, hnext⟩ := h.ending s.child hchild
      let ended : State σ := { s with child := c }
      refine .inl ⟨0, ended, rfl, ?_, hopen, hcapacity, [], hc, hkeys, ?_, ?_⟩
      · apply Act.gives_get_bind.mpr
        rw [hpending]
        exact (gives_onChild hnext).bind Act.gives_pure
      · exact (List.append_nil _).symm.trans (congrArg (· ++ _) hpending.symm)
      · exact (congrArg (List.length · + 0) hpending).symm
    | cons batch pages =>
      obtain ⟨c, hc, hnext⟩ := h.page batch pages s.child hchild
      rw [List.flatMap_cons, List.forall_mem_append] at hkeys
      let fetched : State σ := { s with child := c }
      let passed : State σ := { fetched with pending := batch.rows.map (Row.keyOf fields) }
      refine .inr (.inl ⟨batch.length + total (fun page : Batch => page.length + 1) pages, passed, ?_,
        ?_, hopen, hcapacity, pages, hc, hkeys.2, ?_, ?_⟩)
      · rw [List.length_nil, total_cons]
        omega
      · apply Act.gives_get_bind.mpr
        rw [hpending]
        have hrows := mapM_project?_of_hasKey hkeys.1
        refine (gives_onChild hnext).bind ((Act.gives_require hrows).bind ?_)
        exact (Act.gives_modify _).bind Act.gives_pure
      · rw [List.nil_append, List.flatMap_cons, List.map_append]
      · exact congrArg (· + _) (List.length_map _).symm

theorem fills (h : child.Follows root below p) (pageSize : Nat)
    (hmemory : fitsMemory capacity Batch.rowRoom = true) :
    (cursor pageSize fields child).Fills root capacity (Brings p fields capacity) := by
  intro n s rows hs
  have hsteps : n < steps child s := by
    obtain ⟨pages, hchild, -, -, rfl⟩ := hs.exists_pages
    have hvolume := h.handsPages.total_le_volume hchild
    unfold steps
    omega
  obtain ⟨m, t, ht, hfill⟩ :=
    exists_gives_fillPage (keeps_step h fields capacity) .projectionOutput hmemory hs hsteps
  refine ⟨m, t, ht, Act.gives_get_bind.mpr ?_⟩
  rw [if_pos hs.isOpen, hs.capacity]
  exact hfill

/-- A projection hands the rows of its child out with the fields at some positions. -/
theorem follows (pageSize : Nat) (fields : List Nat) (h : child.Follows root below p)
    (hkeys : ∀ pages, below = .ok pages →
      ∀ row ∈ pages.flatMap (·.rows), Row.HasKey fields row)
    (hmemory : fitsMemory (pageSize / (outputSchema fields child.schema).rowSize)
      Batch.rowRoom = true) :
    (cursor pageSize fields child).Follows root (feed pageSize fields child.schema below)
      (standing p fields (pageSize / (outputSchema fields child.schema).rowSize)) where
  start := ⟨rfl, h.start⟩
  openUp := by
    rintro s ⟨hclosed, hchild⟩
    apply Act.opens_get_bind.mpr
    rw [if_neg (by simp [hclosed])]
    refine Act.opens_ofAnswer_bind ⟨hclosed, .inl hchild⟩ fun capacity hcapacity => ?_
    obtain ⟨rfl, hroom⟩ := Schema.of_pageCapacity hcapacity
    apply (Act.gives_modify _).bind_opens
    refine Act.Opens.within_bind (h.openUp s.child hchild) (fun c hc => ⟨hclosed, .inr (.inl hc)⟩) ?_
    intro pages c hbelow hc
    let opened : State σ := ⟨c, true, pageSize / (outputSchema fields child.schema).rowSize, []⟩
    have hbrings : Brings p fields (pageSize / (outputSchema fields child.schema).rowSize) _ opened _ :=
      ⟨rfl, rfl, pages, hc, hkeys pages hbelow, rfl, rfl⟩
    exact ⟨opened, ⟨hroom, _, _, hbrings, rfl⟩, Act.gives_modify _⟩
  reopen _ s := by
    rintro ⟨-, _, _, hs, -⟩
    exact Act.gives_unless_isOpen State.isOpen hs.isOpen
  page _ _ _ hs := (fills h pageSize hmemory).exists_gives_page hs
  ending _ hs := (fills h pageSize hmemory).exists_gives_none hs
  refuse s := by
    rintro (⟨hclosed, -⟩ | ⟨hclosed, -⟩)
    · exact Act.failsIn_notOpen State.isOpen hclosed
    · exact Act.failsIn_notOpen State.isOpen hclosed
  close := by
    intro s hs
    have hchild : p.Possible s.child := by
      rcases hs with ⟨-, hs⟩ | ⟨-, hs⟩ | ⟨pages, -, _, _, hs, -⟩
      · exact .inl hs
      · exact hs
      · exact hs.possible
    obtain ⟨c, hc, hclose⟩ := h.close s.child hchild
    let emptied : State σ := { s with pending := [], isOpen := false }
    have hcloses : (onChild child.close).Gives root emptied () { emptied with child := c } :=
      gives_onChild (s := emptied) hclose
    exact ⟨{ emptied with child := c }, ⟨rfl, hc⟩, (Act.gives_modify _).bind hcloses⟩
  nonempty _ _ hs := hs.rows_ne_nil

end Project

namespace MergeSort

variable {σ : Type} {child : Cursor σ} {root : TempRoot} {below : Feed} {p : Standing σ}
  {spec : SortSpec} {capacity : Nat} {s : State σ} {pages : List Batch}

/-- How sorting rows in an empty folder ends. -/
def ending (spec : SortSpec) (capacity : Nat) (root : TempRoot) (rows : List Row) :
    Except Failure Unit :=
  match root.makeFolder? (spec.label ++ "-sort-") with
  | none => .error (.error .io)
  | some folder =>
    ((RunSet.sortRows spec capacity rows).run root (RunSet.fresh folder)).answer.map fun _ => ()

def feed (spec : SortSpec) (schema : Schema) (root : TempRoot) (below : Feed) : Feed := do
  let _ ← Failure.ofExcept (validateBuffers spec.numBuffers)
  let capacity ← schema.pageCapacity spec.pageSize
  let _ ← Failure.ofExcept (validateKey spec.key schema)
  let pages ← below
  let _ ← ending spec capacity root (pages.flatMap (·.rows))
  pure (Batch.pages capacity (Row.sortBy spec.key spec.descending (pages.flatMap (·.rows))))

def standing (p : Standing σ) : Standing (State σ) where
  closed s := s.isOpen = false ∧ s.work.runs = [] ∧ p.closed s.child
  failed s := s.isOpen = false ∧ s.work.runs = [] ∧ p.Possible s.child
  before pages s := s.isOpen = true ∧ p.Possible s.child ∧
    ∃ reader, s.reader = some reader ∧ reader.HandsOut pages

theorem possible_of_wasAsked (h : child.Follows root below p) {c d c' : σ}
    (hc : p.before pages c) (hd : p.before [] d) (hasked : WasAsked child root c d c') :
    p.Possible c' := by
  rcases hasked with rfl | ⟨front, hyields⟩
  · exact .inr (.inr ⟨[], hd⟩)
  · exact .inr (.inr (h.exists_before_of_yields hc hyields))

/-- Once its child is open, a sort ends as sorting the child's rows does. -/
theorem opens_sortOrRelease (h : child.Follows root below p) (hs : p.before pages s.child)
    (hclosed : s.isOpen = false) (hruns : s.work.runs = []) (hbuffers : 3 ≤ spec.numBuffers)
    (hc : 0 < capacity)
    (o : KeyOrder spec.key spec.descending (pages.flatMap (·.rows))) :
    (sortOrRelease spec child capacity).Opens root s
      (do
        let _ ← ending spec capacity root (pages.flatMap (·.rows))
        pure (Batch.pages capacity (Row.sortBy spec.key spec.descending (pages.flatMap (·.rows)))))
      (standing p).before (standing p).failed := by
  obtain ⟨d, hd, hdelivers⟩ := h.exists_delivers hs
  -- A sort that fails has deleted its runs and stays closed.
  have hfailed {f : Failure} {P : State σ → Prop}
      (hsort : (sortInput spec child capacity).FailsIn root s f P)
      (hP : ∀ t, P t → t.isOpen = false ∧ p.Possible t.child) :
      (sortOrRelease spec child capacity).FailsIn root s f (standing p).failed := by
    refine (failsIn_sortOrRelease hsort).mono ?_
    rintro _ ⟨t, ht, rfl⟩
    exact ⟨(hP t ht).1, rfl, (hP t ht).2⟩
  unfold ending
  cases hfolder : root.makeFolder? (spec.label ++ "-sort-") with
  | none =>
    refine hfailed (failsIn_sortInput_of_none hfolder) ?_
    rintro t rfl
    exact ⟨hclosed, .inr (.inr ⟨pages, hs⟩)⟩
  | some folder =>
    rcases Act.gives_or_fails (RunSet.sortRows spec capacity (pages.flatMap (·.rows))) root
      (RunSet.fresh folder) with ⟨reader, work, hsort⟩ | ⟨f, hsort⟩
    · have hroom := RunSet.hasRoom_of_gives hbuffers hc hsort
      have hempty := TempRoot.files_of_makeFolder? hfolder
      have hreads := (RunSet.HasSorted.of_gives hbuffers hc hempty hsort).handsOut hroom o
      have hinput := gives_sortInput hfolder hruns hdelivers hsort
      have hopens : (sortOrRelease spec child capacity).Opens root s
          (.ok (RunSet.sortedPages spec capacity (pages.flatMap (·.rows)))) (standing p).before
          (standing p).failed :=
        ⟨_, ⟨rfl, .inr (.inr ⟨[], hd⟩), reader, rfl, hreads⟩, hinput.attempt.bind (Act.gives_modify _)⟩
      simp only [hsort.1]
      exact hopens
    · have hanswer : ((RunSet.sortRows spec capacity (pages.flatMap (·.rows))).run root
          (RunSet.fresh folder)).answer = .error f := hsort
      simp only [hanswer]
      refine hfailed (failsIn_sortInput hfolder hruns hdelivers hsort) ?_
      rintro t ⟨hframe, hasked⟩
      exact ⟨hframe ▸ hclosed, possible_of_wasAsked h hs hd hasked⟩

theorem lt_of_validateKey {key : List Nat} {schema : Schema} {u : Unit}
    (h : validateKey key schema = .ok u) : ∀ i ∈ key, i < schema.length := by
  unfold validateKey at h
  split at h
  · cases h
  · next hfind => exact Schema.lt_length_of_find? hfind

theorem gives_next {reader reader' : RunFile.Reader} {answer : Option Batch} (hopen : s.isOpen = true)
    (hreader : s.reader = some reader) (hnext : reader.next = (.ok answer, reader')) :
    next.Gives root s answer { s with reader := some reader' } := by
  apply Act.gives_get_bind.mpr
  rw [if_pos hopen, hreader]
  simp only [hnext]
  exact Act.gives_set.bind (Act.gives_ofExcept rfl)

/-- A sort that is open reads its run to the end, whatever its child is like. -/
theorem handsPages (spec : SortSpec) (child : Cursor σ) (root : TempRoot) (p : Standing σ) :
    (cursor spec child).HandsPages root (standing p).before where
  page := by
    rintro batch pages s ⟨hopen, hchild, reader, hreader, hreads⟩
    obtain ⟨reader', hnext, -, hrest⟩ := hreads.next_batch
    exact ⟨{ s with reader := some reader' }, ⟨hopen, hchild, reader', rfl, hrest⟩,
      gives_next hopen hreader hnext⟩
  ending := by
    rintro s ⟨hopen, hchild, reader, hreader, hreads⟩
    obtain ⟨reader', hnext, hrest⟩ := hreads.next_end
    exact ⟨{ s with reader := some reader' }, ⟨hopen, hchild, reader', rfl, hrest⟩,
      gives_next hopen hreader hnext⟩

/-- A sort hands the rows of its child out in the order of its key. -/
theorem follows (spec : SortSpec) (h : child.Follows root below p)
    (hrows : ∀ pages, below = .ok pages → ∀ row ∈ pages.flatMap (·.rows), row.Conforms child.schema) :
    (cursor spec child).Follows root (feed spec child.schema root below) (standing p) where
  start := ⟨rfl, rfl, h.start⟩
  openUp := by
    rintro s ⟨hclosed, hruns, hchild⟩
    apply Act.opens_get_bind.mpr
    rw [if_neg (by simp [hclosed])]
    have hfailed : (standing p).failed s := ⟨hclosed, hruns, .inl hchild⟩
    refine Act.opens_ofExcept_bind hfailed fun _ hvalid => ?_
    refine Act.opens_ofAnswer_bind hfailed fun capacity hcapacity => ?_
    apply (Act.gives_modify _).bind_opens
    refine Act.opens_ofExcept_bind hfailed fun _ hkey => ?_
    refine Act.Opens.within_bind (h.openUp s.child hchild)
      (fun c hc => ⟨hclosed, hruns, .inr (.inl hc)⟩) fun pages c hbelow hc => ?_
    obtain ⟨o⟩ := KeyOrder.nonempty_of_areOrderedOn
      (Row.areOrderedOn_of_conforms (hrows pages hbelow) (lt_of_validateKey hkey))
      spec.descending
    exact opens_sortOrRelease h hc hclosed hruns (le_of_validateBuffers hvalid)
      (Schema.of_pageCapacity hcapacity).2 o
  reopen _ _ hs := Act.gives_unless_isOpen State.isOpen hs.1
  page := (handsPages spec child root p).page
  ending := (handsPages spec child root p).ending
  refuse s := by
    rintro (⟨hclosed, -⟩ | ⟨hclosed, -⟩)
    · exact Act.failsIn_notOpen State.isOpen hclosed
    · exact Act.failsIn_notOpen State.isOpen hclosed
  close := by
    intro s hs
    have hchild : p.Possible s.child := by
      rcases hs with ⟨-, -, hs⟩ | ⟨-, -, hs⟩ | ⟨pages, -, hs, -⟩
      · exact .inl hs
      · exact hs
      · exact hs
    obtain ⟨c, hc, hclose⟩ := h.close s.child hchild
    let released : State σ := { s with
      reader := none
      work := { s.work with folder := none, runs := [] } }
    have hcloses : (onChild child.close).Gives root released () { released with child := c } :=
      gives_onChild hclose
    refine ⟨{ released with child := c, isOpen := false }, ⟨rfl, rfl, hc⟩, ?_⟩
    exact gives_release.bind (hcloses.bind (Act.gives_modify _))
  nonempty := by
    rintro pages s ⟨-, -, reader, -, hreads⟩
    exact hreads.rows_ne_nil

end MergeSort

namespace Distinct

variable {σ : Type} {sort : Cursor σ} {root : TempRoot} {below : Feed} {p : Standing σ}
  {capacity : Nat} {s : State σ}

/-- The rows that do not repeat the last one kept. -/
def keepChanges : Option Row → List Row → List Row
  | _, [] => []
  | last, row :: rows =>
    if repeats last row then keepChanges last rows else row :: keepChanges (some row) rows

theorem mem_of_mem_keepChanges {last : Option Row} {rows : List Row} {row : Row}
    (h : row ∈ keepChanges last rows) : row ∈ rows := by
  induction rows generalizing last with
  | nil => exact h
  | cons first rows ih =>
    unfold keepChanges at h
    split at h
    · exact List.mem_cons_of_mem first (ih h)
    · rcases List.mem_cons.mp h with rfl | h
      · exact List.mem_cons_self
      · exact List.mem_cons_of_mem first (ih h)

def feed (pageSize : Nat) (schema : Schema) (below : Feed) : Feed := do
  let capacity ← schema.pageCapacity pageSize
  let pages ← below
  pure (Batch.pages capacity (keepChanges none (pages.flatMap (·.rows))))

structure Brings (p : Standing σ) (capacity : Nat) (n : Nat) (s : State σ) (rows : List Row) :
    Prop where
  isOpen : s.isOpen = true
  capacity : s.capacity = capacity
  exists_pages : ∃ pages, p.before pages s.sort ∧
    rows = keepChanges s.last (s.pending ++ pages.flatMap (·.rows)) ∧
    n = s.pending.length + total (fun page : Batch => page.length + 1) pages

theorem Brings.possible {n : Nat} {rows : List Row} (h : Brings p capacity n s rows) :
    p.Possible s.sort := by
  obtain ⟨pages, hsort, -⟩ := h.exists_pages
  exact .inr (.inr ⟨pages, hsort⟩)

def standing (p : Standing σ) (capacity : Nat) : Standing (State σ) where
  closed s := s.isOpen = false ∧ p.closed s.sort
  failed s := s.isOpen = false ∧ p.Possible s.sort
  before := FillsPages (Brings p capacity) capacity

theorem gives_onSort {α : Type} {x : Act σ α} {a : α} {c : σ} (hx : x.Gives root s.sort a c) :
    (onSort x).Gives root s a { s with sort := c } :=
  hx.within

theorem keeps_step (h : sort.HandsPages root p.before) (capacity : Nat) :
    Step.Keeps (step sort) root (Brings p capacity) := by
  rintro n s rows ⟨hopen, hcapacity, pages, hsort, rfl, rfl⟩
  cases hpending : s.pending with
  | cons row pending =>
    rw [List.cons_append, keepChanges, List.length_cons]
    by_cases hrepeats : repeats s.last row = true
    · rw [if_pos hrepeats]
      let passed : State σ := { s with pending }
      refine .inr (.inl ⟨pending.length + total (fun page : Batch => page.length + 1) pages, passed,
        by omega, ?_, hopen, hcapacity, pages, hsort, rfl, rfl⟩)
      apply Act.gives_get_bind.mpr
      rw [hpending]
      dsimp only
      rw [if_pos hrepeats]
      exact Act.gives_set.bind Act.gives_pure
    · rw [if_neg hrepeats]
      let passed : State σ := { s with pending, last := some row }
      refine .inr (.inr ⟨pending.length + total (fun page : Batch => page.length + 1) pages, passed,
        row, _, by omega, rfl, ?_, hopen, hcapacity, pages, hsort, rfl, rfl⟩)
      apply Act.gives_get_bind.mpr
      rw [hpending]
      dsimp only
      rw [if_neg hrepeats]
      exact Act.gives_set.bind Act.gives_pure
  | nil =>
    cases pages with
    | nil =>
      obtain ⟨c, hc, hnext⟩ := h.ending s.sort hsort
      let ended : State σ := { s with sort := c }
      have hnone : ended.pending = [] := hpending
      refine .inl ⟨0, ended, rfl, ?_, hopen, hcapacity, [], hc, ?_, ?_⟩
      · apply Act.gives_get_bind.mpr
        rw [hpending]
        exact (gives_onSort hnext).bind Act.gives_pure
      · rw [hnone]
        rfl
      · rw [hnone]
        rfl
    | cons batch pages =>
      obtain ⟨c, hc, hnext⟩ := h.page batch pages s.sort hsort
      let passed : State σ := { s with sort := c, pending := batch.rows }
      refine .inr (.inl ⟨batch.length + total (fun page : Batch => page.length + 1) pages, passed, ?_,
        ?_, hopen, hcapacity, pages, hc, ?_, rfl⟩)
      · rw [List.length_nil, total_cons]
        omega
      · apply Act.gives_get_bind.mpr
        rw [hpending]
        exact (gives_onSort hnext).bind ((Act.gives_modify _).bind Act.gives_pure)
      · rw [List.nil_append, List.flatMap_cons]

theorem fills (h : sort.HandsPages root p.before) (pageSize : Nat)
    (hmemory : fitsMemory capacity Batch.rowRoom = true) :
    (overSorted pageSize sort).Fills root capacity (Brings p capacity) := by
  intro n s rows hs
  have hsteps : n < steps sort s := by
    obtain ⟨pages, hsort, -, rfl⟩ := hs.exists_pages
    have hvolume := h.total_le_volume hsort
    unfold steps
    omega
  obtain ⟨m, t, ht, hfill⟩ :=
    exists_gives_fillPage (keeps_step h capacity) .distinctOutput hmemory hs hsteps
  refine ⟨m, t, ht, Act.gives_get_bind.mpr ?_⟩
  rw [if_pos hs.isOpen, hs.capacity]
  exact hfill

/-- A duplicate elimination hands out the rows of its sort that differ from the last one kept. -/
theorem follows (pageSize : Nat) (h : sort.Follows root below p)
    (hmemory : fitsMemory (pageSize / sort.schema.rowSize) Batch.rowRoom = true) :
    (overSorted pageSize sort).Follows root (feed pageSize sort.schema below)
      (standing p (pageSize / sort.schema.rowSize)) where
  start := ⟨rfl, h.start⟩
  openUp := by
    rintro s ⟨hclosed, hsort⟩
    apply Act.opens_get_bind.mpr
    rw [if_neg (by simp [hclosed])]
    refine Act.opens_ofAnswer_bind ⟨hclosed, .inl hsort⟩ fun capacity hcapacity => ?_
    obtain ⟨rfl, hroom⟩ := Schema.of_pageCapacity hcapacity
    apply (Act.gives_modify _).bind_opens
    refine Act.Opens.within_bind (h.openUp s.sort hsort) (fun c hc => ⟨hclosed, .inr (.inl hc)⟩) ?_
    intro pages c hbelow hc
    let opened : State σ := ⟨c, true, pageSize / sort.schema.rowSize, none, []⟩
    have hbrings : Brings p (pageSize / sort.schema.rowSize) _ opened _ :=
      ⟨rfl, rfl, pages, hc, rfl, rfl⟩
    exact ⟨opened, ⟨hroom, _, _, hbrings, rfl⟩, Act.gives_modify _⟩
  reopen _ s := by
    rintro ⟨-, _, _, hs, -⟩
    exact Act.gives_unless_isOpen State.isOpen hs.isOpen
  page _ _ _ hs := (fills h.handsPages pageSize hmemory).exists_gives_page hs
  ending _ hs := (fills h.handsPages pageSize hmemory).exists_gives_none hs
  refuse s := by
    rintro (⟨hclosed, -⟩ | ⟨hclosed, -⟩)
    · exact Act.failsIn_notOpen State.isOpen hclosed
    · exact Act.failsIn_notOpen State.isOpen hclosed
  close := by
    intro s hs
    have hsort : p.Possible s.sort := by
      rcases hs with ⟨-, hs⟩ | ⟨-, hs⟩ | ⟨pages, -, _, _, hs, -⟩
      · exact .inl hs
      · exact hs
      · exact hs.possible
    obtain ⟨c, hc, hclose⟩ := h.close s.sort hsort
    let emptied : State σ := { s with last := none, pending := [], isOpen := false }
    have hcloses : (onSort sort.close).Gives root emptied () { emptied with sort := c } :=
      gives_onSort (s := emptied) hclose
    exact ⟨{ emptied with sort := c }, ⟨rfl, hc⟩, (Act.gives_modify _).bind hcloses⟩
  nonempty _ _ hs := hs.rows_ne_nil

end Distinct

end PagedQuery
