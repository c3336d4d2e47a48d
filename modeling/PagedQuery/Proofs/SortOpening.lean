import PagedQuery.Operator.MergeSort
import PagedQuery.Proofs.CursorPages
import PagedQuery.Proofs.MergePasses

/-!
# Opening a sort

Opening a sort takes all rows of its child, writes them as sorted runs and merges these into one.
After that the sort stands before the pages of the run. What becomes of the rows does not depend on
the pages that they come on: it is what `RunSet.sortRows` makes of them in an empty folder.
-/

namespace PagedQuery

theorem le_of_validateBuffers {numBuffers : Nat} {u : Unit}
    (h : validateBuffers numBuffers = .ok u) : 3 ≤ numBuffers := by
  unfold validateBuffers at h
  split at h
  · cases h
  · next hfew => exact Nat.not_lt.mp hfew

namespace RunSet

variable {spec : SortSpec} {capacity : Nat} {all : List Row} {root : TempRoot} {work : RunSet}
  {reader : RunFile.Reader}

/-- Writes rows as sorted runs. -/
def takeAll (spec : SortSpec) (capacity : Nat) (rows : List Row) : Act RunSet Unit := do
  let block ← Act.ofAnswer (Block.reserve spec.numBuffers capacity)
  let page ← Act.ofAnswer (Draft.reserve capacity)
  let blockAndPage ← rows.foldlM (takeRow spec capacity) (block, page)
  takeEnd spec capacity blockAndPage

def sortRows (spec : SortSpec) (capacity : Nat) (rows : List Row) : Act RunSet RunFile.Reader := do
  takeAll spec capacity rows
  mergeAll spec capacity
  openSingle capacity

/-- The set of runs of a sort that is about to begin. -/
def fresh (folder : Folder) : RunSet := ⟨some folder, [], {}⟩

/-- Whether the rows of an input are in a single run, which a reader is about to read. -/
structure HasSorted (spec : SortSpec) (capacity : Nat) (all : List Row) (reader : RunFile.Reader)
    (work : RunSet) : Prop where
  exists_run : ∃ run : StoredRun capacity, work.Lists [run] ∧
    StoredRun.AreParts spec all [run] ∧ reader.HandsOut run.batches
  stats : ∃ runs, runs = (inputPieces (spec.numBuffers * capacity) all).length ∧
    work.stats = SortStats.afterPasses (spec.numBuffers - 1) runs 1 runs
      (statsOf capacity (chunks (spec.numBuffers * capacity) all))

/-- What the run holds, if the rows can be ordered. -/
theorem HasSorted.handsOut (hroom : spec.HasRoom capacity)
    (o : KeyOrder spec.key spec.descending all) (h : HasSorted spec capacity all reader work) :
    reader.HandsOut (sortedPages spec capacity all) := by
  obtain ⟨run, -, hparts, hreader⟩ := h.exists_run
  rwa [hparts.pages run List.mem_cons_self, hparts.rows_eq hroom o] at hreader

theorem attains_takeAll (root : TempRoot) (h : spec.HasRoom capacity) {folder : Folder}
    (hempty : folder.files = []) (all : List Row) :
    (takeAll spec capacity all).Attains root (fresh folder)
      (fun _ t => ∃ runs : List (StoredRun capacity), t.HasGenerated spec all runs)
      (SortFault spec capacity all) := by
  have hblock : Block.reserve spec.numBuffers capacity = .ok (.empty spec.numBuffers capacity) := by
    rw [Block.reserve, if_pos h.block]
  have hholds : folder.Holds ([] : List (StoredRun capacity)) := by
    refine ⟨?_, List.nodup_nil⟩
    rw [hempty]
    exact List.Perm.nil
  let nothing : Intake spec.numBuffers capacity :=
    ⟨[], [], [], by simp, by simp, Nat.lt_of_lt_of_le (by decide) h.buffers, h.capacity_pos⟩
  have hnothing : Intake.HasTaken spec capacity []
      (.empty spec.numBuffers capacity, .empty capacity) (fresh folder) :=
    ⟨nothing, rfl, ⟨[], ⟨⟨⟨folder, rfl, hholds⟩, rfl⟩, rfl, rfl, rfl⟩⟩, rfl, rfl⟩
  refine (Act.gives_ofAnswer hblock).bind_attains
    ((Act.gives_ofAnswer (Draft.reserve_of_fitsMemory h.page)).bind_attains ?_)
  exact (hnothing.attains_takeRows root h (List.prefix_refl all)).bind fun _ _ ht =>
    attains_takeEnd root h ht

theorem attains_sortRows (root : TempRoot) (h : spec.HasRoom capacity) {folder : Folder}
    (hempty : folder.files = []) (all : List Row) :
    (sortRows spec capacity all).Attains root (fresh folder) (HasSorted spec capacity all)
      (SortFault spec capacity all) := by
  refine (attains_takeAll root h hempty all).bind ?_
  rintro _ t ⟨runs, ht⟩
  refine (attains_mergeAll root h ht).bind ?_
  rintro _ u ⟨run, hu, hparts, hstats⟩
  obtain ⟨reader, hreader, hopen⟩ := exists_gives_openSingle root hu
  exact hopen.attains ⟨⟨run, hu, hparts, hreader⟩, runs.length, ht.length_eq, ht.stats ▸ hstats⟩

theorem hasRoom_of_gives (hbuffers : 3 ≤ spec.numBuffers) (hc : 0 < capacity) {folder : Folder}
    (h : (sortRows spec capacity all).Gives root (fresh folder) reader work) :
    spec.HasRoom capacity := by
  obtain ⟨_, _, htake, -⟩ := h.of_bind
  obtain ⟨block, w₁, hblock, htake⟩ := htake.of_bind
  obtain ⟨hreserved, rfl⟩ := hblock.of_ofAnswer
  obtain ⟨page, w₂, hpage, -⟩ := htake.of_bind
  obtain ⟨hdraft, rfl⟩ := hpage.of_ofAnswer
  refine ⟨hbuffers, hc, ?_, ?_⟩
  · by_contra hnone
    rw [Block.reserve, if_neg hnone] at hreserved
    cases hreserved
  · by_contra hnone
    rw [Draft.reserve, Batch.reserve, if_neg hnone] at hdraft
    cases hdraft

/-- What was sorted is in a single run, in particular if the rows could not be ordered. -/
theorem HasSorted.of_gives (hbuffers : 3 ≤ spec.numBuffers) (hc : 0 < capacity) {folder : Folder}
    (hempty : folder.files = [])
    (h : (sortRows spec capacity all).Gives root (fresh folder) reader work) :
    HasSorted spec capacity all reader work :=
  (attains_sortRows root (hasRoom_of_gives hbuffers hc h) hempty all).of_gives h

end RunSet

namespace MergeSort

variable {σ : Type} {spec : SortSpec} {child : Cursor σ} {root : TempRoot} {capacity : Nat}
  {all : List Row} {s t : State σ} {c c' d : σ} {batches : List Batch} {answer : Option Batch}
  {work : RunSet} {reader : RunFile.Reader} {folder : Folder} {blockAndPage taken : Block × Draft}
  {f : Failure}

theorem gives_onChild {α : Type} {x : Act σ α} {a : α} (hx : x.Gives root s.child a c') :
    (onChild x).Gives root s a { s with child := c' } :=
  hx.within

theorem gives_onRuns {α : Type} {x : Act RunSet α} {a : α} {work : RunSet}
    (hx : x.Gives root s.work a work) : (onRuns x).Gives root s a { s with work } :=
  hx.within

theorem failsIn_onRuns {α : Type} {x : Act RunSet α} (hx : x.Fails root s.work f) :
    (onRuns x).FailsIn root s f fun t => t = { s with work := t.work } := by
  refine hx.failsIn.within.mono ?_
  rintro _ ⟨work, -, rfl⟩
  rfl

/-- Whether a state differs from another one in its child and its runs only. -/
def IsFrame (s t : State σ) : Prop := t = { s with child := t.child, work := t.work }

theorem IsFrame.trans {u : State σ} (hst : IsFrame s t) (htu : IsFrame t u) : IsFrame s u := by
  unfold IsFrame at *
  rw [htu, hst]

theorem gives_takePages (hyields : child.Yields root c batches d)
    (hnext : child.next.Gives root d answer c') (hend : Cursor.endsInput answer = true)
    (hchild : s.child = c)
    (htake : ((batches.flatMap (·.rows)).foldlM (RunSet.takeRow spec capacity) blockAndPage).Gives
      root s.work taken work) {steps : Nat} (hsteps : batches.length < steps) :
    (takePages spec child capacity steps blockAndPage).Gives root s taken
      { s with child := c', work } := by
  induction hyields generalizing s blockAndPage steps with
  | nil d =>
    obtain ⟨steps, rfl⟩ : ∃ n, steps = n + 1 := ⟨steps - 1, by omega⟩
    obtain ⟨rfl, rfl⟩ := htake.unique Act.gives_pure
    subst hchild
    refine (gives_onChild hnext).bind ?_
    cases answer with
    | none => exact Act.gives_pure
    | some batch =>
      have hempty : batch.isEmpty = true := hend
      simp only [hempty, if_true]
      exact Act.gives_pure
  | @cons c₁ c₂ d batch batches hfirst hrows hrest ih =>
    rw [List.length_cons] at hsteps
    obtain ⟨steps, rfl⟩ : ∃ n, steps = n + 1 := ⟨steps - 1, by omega⟩
    rw [List.flatMap_cons, List.foldlM_append] at htake
    obtain ⟨blockAndPage₁, work₁, htake₁, htake₂⟩ := htake.of_bind
    let passed : State σ := { s with child := c₂, work := work₁ }
    have hpassed : passed.child = c₂ := rfl
    have hmore := ih hnext hpassed htake₂ (by omega : batches.length < steps)
    subst hchild
    have hnot : batch.isEmpty = false := by simpa [Batch.isEmpty] using hrows
    refine (gives_onChild hfirst).bind ?_
    simp only [hnot, Bool.false_eq_true, if_false]
    exact (gives_onRuns (s := { s with child := c₂ }) htake₁).bind hmore

theorem fails_takePages (hyields : child.Yields root c batches d)
    (hchild : s.child = c)
    (htake : ((batches.flatMap (·.rows)).foldlM (RunSet.takeRow spec capacity) blockAndPage).Fails
      root s.work f) {steps : Nat} (hsteps : batches.length < steps) :
    (takePages spec child capacity steps blockAndPage).FailsIn root s f fun t =>
      IsFrame s t ∧ ∃ front, child.Yields root c front t.child := by
  induction hyields generalizing s blockAndPage steps with
  | nil d => exact absurd htake Act.gives_pure.not_fails
  | @cons c₁ c₂ d batch batches hfirst hrows hrest ih =>
    rw [List.length_cons] at hsteps
    obtain ⟨steps, rfl⟩ : ∃ n, steps = n + 1 := ⟨steps - 1, by omega⟩
    subst hchild
    have hnot : batch.isEmpty = false := by simpa [Batch.isEmpty] using hrows
    refine (gives_onChild hfirst).bind_failsIn ?_
    simp only [hnot, Bool.false_eq_true, if_false]
    rw [List.flatMap_cons, List.foldlM_append] at htake
    rcases htake.of_bind with htake₁ | ⟨blockAndPage₁, work₁, htake₁, htake₂⟩
    · refine (failsIn_onRuns (s := { s with child := c₂ }) htake₁).bind.mono fun t ht => ?_
      rw [ht]
      exact ⟨rfl, [batch], .cons hfirst hrows (.nil _)⟩
    · let passed : State σ := { s with child := c₂, work := work₁ }
      have hpassed : passed.child = c₂ := rfl
      refine (gives_onRuns (s := { s with child := c₂ }) htake₁).bind_failsIn ?_
      refine (ih hpassed htake₂ (by omega)).mono ?_
      rintro t ⟨hframe, front, hfront⟩
      exact ⟨IsFrame.trans (t := passed) rfl hframe, batch :: front, .cons hfirst hrows hfront⟩

/-- What was taken are the rows of the pages that the child has delivered. -/
theorem exists_delivers_of_takePages {steps : Nat} (hsteps : child.volume s.child < steps)
    (h : (takePages spec child capacity steps blockAndPage).Gives root s taken t) :
    ∃ batches, child.Delivers root s.child batches t.child ∧
      ((batches.flatMap (·.rows)).foldlM (RunSet.takeRow spec capacity) blockAndPage).Gives root s.work
        taken t.work := by
  induction steps generalizing s blockAndPage with
  | zero => exact absurd hsteps (Nat.not_lt_zero _)
  | succ steps ih =>
    obtain ⟨answer, t₁, hnext, hrest⟩ := h.of_bind
    obtain ⟨c₁, hpage, rfl⟩ := hnext.of_within
    cases answer with
    | none =>
      obtain ⟨rfl, rfl⟩ := hrest.unique Act.gives_pure
      exact ⟨[], ⟨_, none, .nil _, hpage, rfl⟩, Act.gives_pure⟩
    | some batch =>
      dsimp only at hrest
      split at hrest
      · next hempty =>
        obtain ⟨rfl, rfl⟩ := hrest.unique Act.gives_pure
        exact ⟨[], ⟨_, some batch, .nil _, hpage, hempty⟩, Act.gives_pure⟩
      · next hrows =>
        obtain ⟨blockAndPage₁, t₂, htake, hmore⟩ := hrest.of_bind
        obtain ⟨work₁, htaken, rfl⟩ := htake.of_within
        have htake' : (batch.rows.foldlM (RunSet.takeRow spec capacity) blockAndPage).Gives root
            s.work blockAndPage₁ work₁ := htaken
        have hcost := Cursor.volume_of_gives hpage
        simp only [pageCost] at hcost
        have hfewer : child.volume c₁ < steps := by omega
        obtain ⟨batches, ⟨u, answer, hyields, hend⟩, hfold⟩ := ih hfewer hmore
        have hne : batch.rows ≠ [] := by simpa [Batch.isEmpty] using hrows
        refine ⟨batch :: batches, ⟨u, answer, .cons hpage hne hyields, hend⟩, ?_⟩
        rw [List.flatMap_cons, List.foldlM_append]
        exact htake'.bind hfold

/-- The final run is read page by page, and the child is left alone. -/
theorem supplies_of_handsOut (spec : SortSpec) (child : Cursor σ) (root : TempRoot)
    (hreads : reader.HandsOut batches) (hopen : s.isOpen = true) (hreader : s.reader = some reader)
    (hchild : s.child = c) : (cursor spec child).Supplies root (·.child = c) s batches := by
  induction hreads generalizing s with
  | @ended reader reader' hnext _ =>
    let passed : State σ := { s with reader := some reader' }
    refine .ended (t := passed) (Act.gives_get_bind.mpr ?_) hchild
    rw [if_pos hopen, hreader]
    simp only [hnext]
    exact Act.gives_set.bind (Act.gives_ofExcept rfl)
  | @batch reader reader' batch batches hnext hrows _ ih =>
    let passed : State σ := { s with reader := some reader' }
    have hpassed : passed.isOpen = true := hopen
    refine .page (t := passed) (Act.gives_get_bind.mpr ?_) hrows hchild (ih hpassed rfl hchild)
    rw [if_pos hopen, hreader]
    simp only [hnext]
    exact Act.gives_set.bind (Act.gives_ofExcept rfl)

theorem gives_generateRuns (hdelivers : child.Delivers root s.child batches d)
    (htake : (RunSet.takeAll spec capacity (batches.flatMap (·.rows))).Gives root s.work () work) :
    (generateRuns spec child capacity).Gives root s () { s with child := d, work } := by
  obtain ⟨e, answer, hyields, hnext, hend⟩ := hdelivers
  have hsteps : batches.length < child.volume s.child + 1 := by
    have hlength := hyields.length_le
    omega
  obtain ⟨block, w₁, hblock, htake⟩ := htake.of_bind
  obtain ⟨hreserved, rfl⟩ := hblock.of_ofAnswer
  obtain ⟨page, w₂, hpage, htake⟩ := htake.of_bind
  obtain ⟨hdraft, rfl⟩ := hpage.of_ofAnswer
  obtain ⟨taken, w₃, htake, hlast⟩ := htake.of_bind
  refine Act.gives_get_bind.mpr ((Act.gives_ofAnswer hreserved).bind ?_)
  refine (Act.gives_ofAnswer hdraft).bind ?_
  exact (gives_takePages hyields hnext hend rfl htake hsteps).bind
    (gives_onRuns (s := { s with child := d, work := w₃ }) hlast)

/-- Whether a child is at a place that taking some pages from it leads to. -/
def WasAsked (child : Cursor σ) (root : TempRoot) (c d : σ) (c' : σ) : Prop :=
  c' = d ∨ ∃ front, child.Yields root c front c'

theorem failsIn_generateRuns (hdelivers : child.Delivers root s.child batches d)
    (htake : (RunSet.takeAll spec capacity (batches.flatMap (·.rows))).Fails root s.work f) :
    (generateRuns spec child capacity).FailsIn root s f fun t =>
      IsFrame s t ∧ WasAsked child root s.child d t.child := by
  obtain ⟨e, answer, hyields, hnext, hend⟩ := hdelivers
  have hsteps : batches.length < child.volume s.child + 1 := by
    have hlength := hyields.length_le
    omega
  have hstart : IsFrame s s ∧ WasAsked child root s.child d s.child := ⟨rfl, .inr ⟨[], .nil _⟩⟩
  refine Act.ensures_get_bind.mpr ?_
  rcases htake.of_bind with hblock | ⟨block, w₁, hblock, htake⟩
  · exact Act.FailsIn.bind (Act.failsIn_ofAnswer hblock.of_ofAnswer hstart)
  obtain ⟨hreserved, rfl⟩ := hblock.of_ofAnswer
  refine (Act.gives_ofAnswer hreserved).bind_failsIn ?_
  rcases htake.of_bind with hpage | ⟨page, w₂, hpage, htake⟩
  · exact Act.FailsIn.bind (Act.failsIn_ofAnswer hpage.of_ofAnswer hstart)
  obtain ⟨hdraft, rfl⟩ := hpage.of_ofAnswer
  refine (Act.gives_ofAnswer hdraft).bind_failsIn ?_
  rcases htake.of_bind with htake | ⟨taken, w₃, htake, hlast⟩
  · exact ((fails_takePages hyields rfl htake hsteps).mono fun t ht => ⟨ht.1, .inr ht.2⟩).bind
  · refine (gives_takePages hyields hnext hend rfl htake hsteps).bind_failsIn ?_
    refine (failsIn_onRuns (s := { s with child := d, work := w₃ }) hlast).mono fun t ht => ?_
    rw [ht]
    exact ⟨rfl, .inl rfl⟩

/-- The steps of a sort once it has its folder. -/
def sortInto (spec : SortSpec) (child : Cursor σ) (capacity : Nat) : Act (State σ) Unit := do
  generateRuns spec child capacity
  onRuns (RunSet.mergeAll spec capacity)
  let reader ← onRuns (RunSet.openSingle capacity)
  modify fun s => { s with reader := some reader }

/-- The folder of a sort is made before anything else is done. -/
theorem ensures_sortInput (hfolder : root.makeFolder? (spec.label ++ "-sort-") = some folder)
    (hruns : s.work.runs = []) {post : Except Failure Unit → State σ → Prop} :
    (sortInput spec child capacity).Ensures root s post ↔
      (sortInto spec child capacity).Ensures root { s with work := RunSet.fresh folder } post := by
  rcases s with ⟨c, isOpen, capacity', ⟨folder', runs, stats⟩, reader⟩
  obtain rfl : runs = [] := hruns
  rw [sortInput, Act.ensures_tempRoot_bind, hfolder]
  exact Iff.rfl

theorem gives_sortInput (hfolder : root.makeFolder? (spec.label ++ "-sort-") = some folder)
    (hruns : s.work.runs = []) (hdelivers : child.Delivers root s.child batches d)
    (hsort : (RunSet.sortRows spec capacity (batches.flatMap (·.rows))).Gives root
      (RunSet.fresh folder) reader work) :
    (sortInput spec child capacity).Gives root s ()
      { s with child := d, work, reader := some reader } := by
  obtain ⟨_, w₁, htake, hsort⟩ := hsort.of_bind
  obtain ⟨_, w₂, hmerge, hopen⟩ := hsort.of_bind
  refine (ensures_sortInput hfolder hruns).mpr ?_
  refine (gives_generateRuns (s := { s with work := RunSet.fresh folder }) hdelivers htake).bind ?_
  refine (gives_onRuns (s := { s with child := d, work := w₁ }) hmerge).bind ?_
  exact (gives_onRuns (s := { s with child := d, work := w₂ }) hopen).bind (Act.gives_modify _)

theorem failsIn_sortInput (hfolder : root.makeFolder? (spec.label ++ "-sort-") = some folder)
    (hruns : s.work.runs = []) (hdelivers : child.Delivers root s.child batches d)
    (hsort : (RunSet.sortRows spec capacity (batches.flatMap (·.rows))).Fails root
      (RunSet.fresh folder) f) :
    (sortInput spec child capacity).FailsIn root s f fun t =>
      IsFrame s t ∧ WasAsked child root s.child d t.child := by
  let prepared : State σ := { s with work := RunSet.fresh folder }
  have hprepared : IsFrame s prepared := rfl
  refine (ensures_sortInput hfolder hruns).mpr ?_
  rcases hsort.of_bind with htake | ⟨_, w₁, htake, hsort⟩
  · exact ((failsIn_generateRuns (s := prepared) hdelivers htake).mono fun t ht =>
      ⟨hprepared.trans ht.1, ht.2⟩).bind
  refine (gives_generateRuns (s := prepared) hdelivers htake).bind_failsIn ?_
  have hframe : ∀ t : State σ, t = { s with child := d, work := t.work } →
      IsFrame s t ∧ WasAsked child root s.child d t.child := by
    intro t ht
    rw [ht]
    exact ⟨rfl, .inl rfl⟩
  rcases hsort.of_bind with hmerge | ⟨_, w₂, hmerge, hopen⟩
  · exact ((failsIn_onRuns (s := { s with child := d, work := w₁ }) hmerge).mono hframe).bind
  refine (gives_onRuns (s := { s with child := d, work := w₁ }) hmerge).bind_failsIn ?_
  exact ((failsIn_onRuns (s := { s with child := d, work := w₂ }) hopen).mono hframe).bind

theorem failsIn_sortInput_of_none (hfolder : root.makeFolder? (spec.label ++ "-sort-") = none) :
    (sortInput spec child capacity).FailsIn root s (.error .io) (· = s) := by
  unfold Act.FailsIn
  rw [sortInput, Act.ensures_tempRoot_bind, hfolder]
  exact ⟨rfl, rfl⟩

/-- What was sorted are the rows of the pages that the child has delivered. -/
theorem exists_delivers_of_sortInput (hruns : s.work.runs = [])
    (h : (sortInput spec child capacity).Gives root s () t) :
    ∃ folder batches reader, root.makeFolder? (spec.label ++ "-sort-") = some folder ∧
      child.Delivers root s.child batches t.child ∧
      (RunSet.sortRows spec capacity (batches.flatMap (·.rows))).Gives root (RunSet.fresh folder) reader
        t.work ∧ t.reader = some reader := by
  cases hfolder : root.makeFolder? (spec.label ++ "-sort-") with
  | none => exact absurd (failsIn_sortInput_of_none hfolder).fails h.not_fails
  | some folder =>
    replace h : (sortInto spec child capacity).Gives root { s with work := RunSet.fresh folder } () t :=
      (ensures_sortInput hfolder hruns).mp h
    obtain ⟨_, t₁, hgenerate, h⟩ := h.of_bind
    obtain ⟨_, t₂, hmerge, h⟩ := h.of_bind
    obtain ⟨w₂, hmerged, rfl⟩ := hmerge.of_within
    obtain ⟨reader, t₃, hopen, h⟩ := h.of_bind
    obtain ⟨w₃, hopened, rfl⟩ := hopen.of_within
    obtain ⟨-, rfl⟩ := h.unique (Act.gives_modify _)
    obtain ⟨block, u₁, hblock, hgenerate⟩ := (Act.gives_get_bind.mp hgenerate).of_bind
    obtain ⟨hreserved, rfl⟩ := hblock.of_ofAnswer
    obtain ⟨page, u₂, hpage, hgenerate⟩ := hgenerate.of_bind
    obtain ⟨hdraft, rfl⟩ := hpage.of_ofAnswer
    obtain ⟨taken, u₃, htake, hlast⟩ := hgenerate.of_bind
    obtain ⟨w₁, hended, rfl⟩ := hlast.of_within
    obtain ⟨batches, hdelivers, hrows⟩ := exists_delivers_of_takePages (Nat.lt_succ_self _) htake
    have htaken : (RunSet.takeAll spec capacity (batches.flatMap (·.rows))).Gives root
        (RunSet.fresh folder) () w₁ :=
      (Act.gives_ofAnswer hreserved).bind ((Act.gives_ofAnswer hdraft).bind (hrows.bind hended))
    exact ⟨folder, batches, reader, rfl, hdelivers, htaken.bind (hmerged.bind hopened), rfl⟩

theorem gives_release : (release : Act (State σ) Unit).Gives root s ()
    { s with reader := none, work := { s.work with folder := none, runs := [] } } :=
  (Act.gives_modify _).bind (gives_onRuns RunSet.gives_release)

theorem failsIn_sortOrRelease {P : State σ → Prop}
    (h : (sortInput spec child capacity).FailsIn root s f P) :
    (sortOrRelease spec child capacity).FailsIn root s f fun t => ∃ u, P u ∧
      t = { u with reader := none, work := { u.work with folder := none, runs := [] } } := by
  obtain ⟨u, hu, hattempt⟩ := h.exists_attempt
  exact hattempt.bind_failsIn (gives_release.bind_failsIn ⟨rfl, u, hu, rfl⟩)

/-- A sort that opens has valid settings, and has opened its child and brought its rows into a run. -/
theorem exists_of_gives_openUp (hclosed : s.isOpen = false)
    (h : (openUp spec child).Gives root s () t) :
    3 ≤ spec.numBuffers ∧ 0 < spec.pageSize / child.schema.rowSize ∧
      ∃ c u, child.openUp.Gives root s.child () c ∧
        (sortInput spec child (spec.pageSize / child.schema.rowSize)).Gives root
          { s with child := c, capacity := spec.pageSize / child.schema.rowSize } () u ∧
        t = { u with isOpen := true } := by
  replace h := Act.gives_get_bind.mp h
  rw [if_neg (by simp [hclosed])] at h
  obtain ⟨_, hvalid, h⟩ := h.of_ofExcept_bind
  obtain ⟨capacity, hcapacity, h⟩ := h.of_ofAnswer_bind
  obtain ⟨rfl, hc⟩ := Schema.of_pageCapacity hcapacity
  obtain ⟨_, sized, hsized, h⟩ := h.of_bind
  obtain ⟨-, rfl⟩ := hsized.unique (Act.gives_modify _)
  obtain ⟨_, -, h⟩ := h.of_ofExcept_bind
  obtain ⟨_, opened, hopened, h⟩ := h.of_bind
  obtain ⟨c, hchild, rfl⟩ := hopened.of_within
  obtain ⟨attempted, u, hattempt, h⟩ := h.of_bind
  refine ⟨le_of_validateBuffers hvalid, hc, c, u, hchild, ?_⟩
  rcases Act.gives_or_fails (sortInput spec child (spec.pageSize / child.schema.rowSize)) root
    { s with child := c, capacity := spec.pageSize / child.schema.rowSize } with
    ⟨_, u', hsort⟩ | ⟨f, hsort⟩
  · obtain ⟨rfl, rfl⟩ := hattempt.unique hsort.attempt
    exact ⟨hsort, (h.unique (Act.gives_modify _)).2⟩
  · obtain ⟨u', hfailed⟩ := hsort.exists_attempt
    obtain ⟨rfl, rfl⟩ := hattempt.unique hfailed
    have habandon : (do release; Act.abandon f : Act (State σ) Unit).Fails root u f :=
      gives_release.bind_fails rfl
    exact absurd habandon h.not_fails

/-- A sort that opens has sorted the rows that its child delivers, and is about to read them. -/
theorem exists_hasSorted_of_gives (hclosed : s.isOpen = false) (hruns : s.work.runs = [])
    (hopen : child.openUp.Gives root s.child () c) (hdelivers : child.Delivers root c batches d)
    (h : (openUp spec child).Gives root s () t) :
    spec.HasRoom (spec.pageSize / child.schema.rowSize) ∧ ∃ reader,
      RunSet.HasSorted spec (spec.pageSize / child.schema.rowSize) (batches.flatMap (·.rows)) reader
        t.work ∧ t.isOpen = true ∧ t.reader = some reader := by
  obtain ⟨hbuffers, hc, c', u, hopened, hinput, rfl⟩ := exists_of_gives_openUp hclosed h
  obtain ⟨-, rfl⟩ := hopened.unique hopen
  obtain ⟨folder, batches', reader, hfolder, hdelivers', hsort, hreader⟩ :=
    exists_delivers_of_sortInput (s := { s with child := c', capacity := _ }) hruns hinput
  obtain ⟨rfl, -⟩ := hdelivers'.unique hdelivers
  refine ⟨RunSet.hasRoom_of_gives hbuffers hc hsort, reader, ?_, rfl, hreader⟩
  exact RunSet.HasSorted.of_gives hbuffers hc (TempRoot.files_of_makeFolder? hfolder) hsort

theorem exists_gives_close {closed : σ} (h : child.close.Gives root s.child () closed) :
    ∃ t, (cursor spec child).close.Gives root s () t := by
  let released : State σ := { s with
    reader := none
    work := { s.work with folder := none, runs := [] } }
  have hclose : (onChild child.close).Gives root released () { released with child := closed } :=
    gives_onChild h
  exact ⟨_, gives_release.bind (hclose.bind (Act.gives_modify _))⟩

/-- Once its settings are found valid, opening a sort is opening its child and sorting its rows. -/
theorem ensures_openUp (hbuffers : 3 ≤ spec.numBuffers)
    (hpage : 1 ≤ spec.pageSize / child.schema.rowSize)
    (hkey : ∀ position ∈ spec.key, position < child.schema.length) (hclosed : s.isOpen = false)
    (hopen : child.openUp.Gives root s.child () c) {post : Except Failure Unit → State σ → Prop}
    (hsort : (sortOrRelease spec child (spec.pageSize / child.schema.rowSize)).Ensures root
      { s with child := c, capacity := spec.pageSize / child.schema.rowSize } post) :
    (openUp spec child).Ensures root s post := by
  have hvalid : validateBuffers spec.numBuffers = .ok () := if_neg (Nat.not_lt.mpr hbuffers)
  have hcapacity := Schema.pageCapacity_of_le hpage
  have hreach : validateKey spec.key child.schema = .ok () := by
    have hfind : spec.key.find? (child.schema.length ≤ ·) = none := by
      rw [List.find?_eq_none]
      intro position hposition hbeyond
      exact Nat.not_le_of_lt (hkey position hposition) (of_decide_eq_true hbeyond)
    rw [validateKey, hfind]
  let sized : State σ := { s with capacity := spec.pageSize / child.schema.rowSize }
  have hopened : child.openUp.Gives root sized.child () c := hopen
  refine Act.ensures_get_bind.mpr ?_
  rw [if_neg (by simp [hclosed])]
  refine (Act.gives_ofExcept hvalid).bind_ensures ((Act.gives_ofAnswer hcapacity).bind_ensures ?_)
  refine (Act.gives_modify _).bind_ensures ((Act.gives_ofExcept hreach).bind_ensures ?_)
  exact (gives_onChild hopened).bind_ensures hsort

theorem exists_gives_openUp (hpage : 1 ≤ spec.pageSize / child.schema.rowSize)
    (h : CanSort spec (spec.pageSize / child.schema.rowSize) all)
    (o : KeyOrder spec.key spec.descending all)
    (hkey : ∀ position ∈ spec.key, position < child.schema.length)
    (hfolder : (root.makeFolder? (spec.label ++ "-sort-")).isSome = true)
    (hclosed : s.isOpen = false) (hruns : s.work.runs = [])
    (hopen : child.openUp.Gives root s.child () c) (hdelivers : child.Delivers root c batches d)
    (hall : batches.flatMap (·.rows) = all) :
    ∃ s', (openUp spec child).Gives root s () s' ∧
      (∃ run : StoredRun (spec.pageSize / child.schema.rowSize), s'.work.Lists [run]) ∧
      (cursor spec child).Supplies root (·.child = d) s'
        (Batch.pages (spec.pageSize / child.schema.rowSize) (all.mergeSort o.le)) := by
  obtain ⟨folder, hfolder⟩ := Option.isSome_iff_exists.mp hfolder
  obtain ⟨reader, work, hsorted, hsort⟩ := (RunSet.attains_sortRows root h.hasRoom
    (TempRoot.files_of_makeFolder? hfolder) all).exists_gives (h.not_sortFault o.hasKey)
  obtain ⟨run, hrun, -, -⟩ := hsorted.exists_run
  have hpages := hsorted.handsOut h.hasRoom o
  rw [RunSet.sortedPages, o.sortBy_eq (List.Subset.refl all)] at hpages
  let started : State σ := { s with
    child := c
    capacity := spec.pageSize / child.schema.rowSize }
  have hstarted : started.work.runs = [] := hruns
  have hinput := gives_sortInput hfolder hstarted hdelivers (hall ▸ hsort)
  let opened : State σ := { started with child := d, work, reader := some reader, isOpen := true }
  have hisOpen : opened.isOpen = true := rfl
  refine ⟨opened, ?_, ⟨run, hrun⟩, supplies_of_handsOut spec child root hpages hisOpen rfl rfl⟩
  exact ensures_openUp h.buffers hpage hkey hclosed hopen
    (hinput.attempt.bind_ensures (Act.gives_modify _))

end MergeSort
end PagedQuery
