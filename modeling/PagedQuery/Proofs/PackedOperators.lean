import PagedQuery.Operator.Aggregate
import PagedQuery.Proofs.JoinFolders
import PagedQuery.Proofs.OperatorFeeds
import PagedQuery.Proofs.PackedPages
import PagedQuery.Sample

/-!
# Operators that pack their pages

Every operator that opens and is drained without a failure has given its rows on packed pages. The rows
of a sort lie in a file on such pages already. A projection, a duplicate elimination and an aggregation
hand a page with room left on only when what they read from has ended, and a join ends its output
together with such a page.
-/

namespace PagedQuery

namespace RowSource

theorem packsPages (pageSize : Nat) (schema : Schema) (rows : List Row) (root : TempRoot) :
    (cursor pageSize schema rows).PacksPages root pageSize := by
  refine Cursor.packsPages_of_supplies fun s hopen => ?_
  have hfollows := follows pageSize schema rows root
  have hfeed := hfollows.openUp none rfl
  unfold feed at hfeed
  cases hcapacity : schema.pageCapacity pageSize with
  | error e =>
    rw [hcapacity] at hfeed
    exact absurd hfeed.fails hopen.not_fails
  | ok capacity =>
    rw [hcapacity] at hfeed
    obtain ⟨t, ht, hgives⟩ := hfeed
    obtain ⟨-, rfl⟩ := hopen.unique hgives
    obtain ⟨rfl, hc⟩ := Schema.of_pageCapacity hcapacity
    exact ⟨hc, rows, _, hfollows.supplies ht⟩

end RowSource

namespace MergeSort

variable {σ : Type} {spec : SortSpec} {child : Cursor σ} {root : TempRoot} {s t : State σ}

/-- Whether an open sort is about to read these rows, which lie on pages in its run. -/
def IsBefore (capacity : Nat) (rows : List Row) (s : State σ) : Prop :=
  s.isOpen = true ∧ ∃ reader, s.reader = some reader ∧
    reader.HandsOut (Batch.pages capacity rows)

theorem isBefore_of_gives (hclosed : s.isOpen = false) (hruns : s.work.runs = [])
    (h : (openUp spec child).Gives root s () t) :
    0 < spec.pageSize / child.schema.rowSize ∧
      ∃ rows, IsBefore (spec.pageSize / child.schema.rowSize) rows t := by
  obtain ⟨hbuffers, hc, c, u, -, hsort, rfl⟩ := exists_of_gives_openUp hclosed h
  -- Whatever rows the child has given, those that were sorted lie in a single run on pages.
  obtain ⟨folder, batches, reader, hfolder, -, hsorted, hreader⟩ :=
    exists_delivers_of_sortInput (s := { s with child := c, capacity := _ }) hruns hsort
  obtain ⟨run, -, hparts, hreads⟩ := (RunSet.HasSorted.of_gives hbuffers hc
    (TempRoot.files_of_makeFolder? hfolder) hsorted).exists_run
  exact ⟨hc, run.rows, rfl, reader, hreader, hparts.pages run List.mem_cons_self ▸ hreads⟩

theorem packsPages (spec : SortSpec) (child : Cursor σ) (root : TempRoot) :
    (cursor spec child).PacksPages root spec.pageSize := by
  refine Cursor.packsPages_of_supplies fun s hopen => ?_
  obtain ⟨hc, rows, hisOpen, reader, hreader, hreads⟩ :=
    isBefore_of_gives rfl rfl hopen
  exact ⟨hc, rows, _, supplies_of_handsOut spec child root hreads hisOpen hreader rfl⟩

theorem runsDry_of_handsOut (spec : SortSpec) (child : Cursor σ) (root : TempRoot)
    {reader : RunFile.Reader} {batches : List Batch} (hreads : reader.HandsOut batches)
    (hopen : s.isOpen = true) (hreader : s.reader = some reader) :
    (cursor spec child).RunsDry root s := by
  induction batches generalizing s reader with
  | nil =>
    refine ⟨[], s, .nil s, Cursor.isOver_of_step (P := fun s => s.isOpen = true ∧
      ∃ reader, s.reader = some reader ∧ reader.HandsOut []) ?_ ⟨hopen, reader, hreader, hreads⟩⟩
    rintro s ⟨hopen, reader, hreader, hreads⟩
    obtain ⟨reader', hnext, hrest⟩ := hreads.next_end
    exact ⟨{ s with reader := some reader' }, ⟨hopen, reader', rfl, hrest⟩,
      gives_next hopen hreader hnext⟩
  | cons batch batches ih =>
    obtain ⟨reader', hnext, hrows, hrest⟩ := hreads.next_batch
    let passed : State σ := { s with reader := some reader' }
    obtain ⟨others, t, hyields, hover⟩ := ih (s := passed) hrest hopen rfl
    exact ⟨batch :: others, t, .cons (gives_next hopen hreader hnext) hrows hyields, hover⟩

/-- A sort that has opened gives its rows and then none forever. -/
theorem runsDry_of_gives (h : (cursor spec child).openUp.Gives root (cursor spec child).start () s) :
    (cursor spec child).RunsDry root s := by
  obtain ⟨-, rows, hopen, reader, hreader, hreads⟩ :=
    isBefore_of_gives rfl rfl h
  exact runsDry_of_handsOut spec child root hreads hopen hreader

end MergeSort

namespace Project

variable {σ : Type} {child : Cursor σ} {root : TempRoot}

structure IsReading (child : Cursor σ) (root : TempRoot) (capacity : Nat) (s : State σ) : Prop where
  capacity : s.capacity = capacity
  child : child.RunsDry root s.child

/-- A projection that has given all rows of its child. -/
structure HasEnded (child : Cursor σ) (root : TempRoot) (s : State σ) : Prop where
  pending : s.pending = []
  child : child.IsOver root s.child

theorem exhausts_step (fields : List Nat) (child : Cursor σ) (root : TempRoot) (capacity : Nat) :
    Step.Exhausts (step fields child) root (volume child) (IsReading child root capacity)
      (HasEnded child root) where
  more := by
    intro s hs
    apply Act.ensures_get_bind.mpr
    cases hpending : s.pending with
    | cons row pending =>
      refine Act.ensures_set_bind.mpr (Act.ensures_pure.mpr ⟨⟨hs.capacity, hs.child⟩, ?_⟩)
      simp only [volume, hpending, List.length_cons]
      omega
    | nil =>
      have hvolume : volume child s = child.volume s.child := by
        simp only [volume, hpending, List.length_nil, Nat.zero_add]
      refine Act.Ensures.within_bind hs.child.ensures_next (fun _ _ _ => trivial) ?_
      rintro (_ | batch) c ⟨hnone, hsome⟩
      · exact Act.ensures_pure.mpr ⟨hpending, hnone rfl⟩
      · obtain ⟨hchild, hless⟩ := hsome batch rfl
        dsimp only
        cases hrows : batch.rows.mapM (Row.project? · fields) with
        | none => exact trivial
        | some pending =>
          refine Act.ensures_pure_bind.mpr (Act.ensures_modify_bind.mpr (Act.ensures_pure.mpr ?_))
          refine ⟨⟨hs.capacity, hchild⟩, ?_⟩
          rw [hvolume, volume, length_of_mapM_eq_some hrows]
          exact hless
  ended := by
    intro s hs
    apply Act.ensures_get_bind.mpr
    rw [hs.pending]
    obtain ⟨c, -, hnext⟩ := hs.child.exists_gives
    exact (gives_onChild hnext).bind_ensures fun found hfound => (Except.ok.inj hfound).symm

theorem packs (pageSize : Nat) (fields : List Nat) (child : Cursor σ) (root : TempRoot)
    (capacity : Nat) : (cursor pageSize fields child).Packs root capacity
      (IsReading child root capacity) (HasEnded child root) where
  more := by
    intro s hs
    apply Act.ensures_get_bind.mpr
    split
    · rw [hs.capacity]
      exact ensures_fillPage_of_progress (exhausts_step fields child root capacity).more _ hs
        (Nat.lt_succ_self _)
    · exact fun _ hok => by cases hok
  ended := by
    intro s hs
    apply Act.ensures_get_bind.mpr
    split
    · exact (exhausts_step fields child root s.capacity).ensures_fillPage_of_over _ _ _ hs
    · exact fun _ hok => by cases hok

theorem packsPages (pageSize : Nat) (fields : List Nat)
    (hchild : ∀ c, child.openUp.Gives root child.start () c → child.RunsDry root c) :
    (cursor pageSize fields child).PacksPages root pageSize := by
  refine Cursor.packsPages_of_packs ?_ fun _ => packs pageSize fields child root _
  apply Act.ensures_get_bind.mpr
  rw [if_neg (by simp [cursor])]
  refine Act.ensures_ofAnswer_bind (fun capacity hcapacity => ?_) fun _ _ hok => by cases hok
  obtain ⟨rfl, hc⟩ := Schema.of_pageCapacity hcapacity
  apply Act.ensures_modify_bind.mpr
  have hopen : child.openUp.Ensures root child.start fun answer c =>
      answer = .ok () → child.RunsDry root c := fun hok => hchild _ ⟨hok, rfl⟩
  refine Act.Ensures.within_bind hopen (fun _ _ _ hok => by cases hok) fun _ c hc' => ?_
  exact Act.ensures_modify.mpr fun _ => ⟨hc, rfl, hc' rfl⟩

end Project

namespace Distinct

variable {σ : Type} {sort : Cursor σ} {root : TempRoot}

structure IsReading (sort : Cursor σ) (root : TempRoot) (capacity : Nat) (s : State σ) : Prop where
  capacity : s.capacity = capacity
  sort : sort.RunsDry root s.sort

/-- A duplicate elimination that has looked at all rows of its sort. -/
structure HasEnded (sort : Cursor σ) (root : TempRoot) (s : State σ) : Prop where
  pending : s.pending = []
  sort : sort.IsOver root s.sort

theorem exhausts_step (sort : Cursor σ) (root : TempRoot) (capacity : Nat) :
    Step.Exhausts (step sort) root (volume sort) (IsReading sort root capacity)
      (HasEnded sort root) where
  more := by
    intro s hs
    apply Act.ensures_get_bind.mpr
    cases hpending : s.pending with
    | cons row pending =>
      have hless : pending.length + sort.volume s.sort < volume sort s := by
        simp only [volume, hpending, List.length_cons]
        omega
      dsimp only
      split
      · exact Act.ensures_set_bind.mpr ⟨⟨hs.capacity, hs.sort⟩, hless⟩
      · exact Act.ensures_set_bind.mpr ⟨⟨hs.capacity, hs.sort⟩, hless⟩
    | nil =>
      have hvolume : volume sort s = sort.volume s.sort := by
        simp only [volume, hpending, List.length_nil, Nat.zero_add]
      refine Act.Ensures.within_bind hs.sort.ensures_next (fun _ _ _ => trivial) ?_
      rintro (_ | batch) c ⟨hnone, hsome⟩
      · exact Act.ensures_pure.mpr ⟨hpending, hnone rfl⟩
      · obtain ⟨hsort, hless⟩ := hsome batch rfl
        refine Act.ensures_modify_bind.mpr ⟨⟨hs.capacity, hsort⟩, ?_⟩
        rw [hvolume]
        exact hless
  ended := by
    intro s hs
    apply Act.ensures_get_bind.mpr
    rw [hs.pending]
    obtain ⟨c, -, hnext⟩ := hs.sort.exists_gives
    exact (gives_onSort hnext).bind_ensures fun found hfound => (Except.ok.inj hfound).symm

theorem packs (pageSize : Nat) (sort : Cursor σ) (root : TempRoot) (capacity : Nat) :
    (overSorted pageSize sort).Packs root capacity (IsReading sort root capacity)
      (HasEnded sort root) where
  more := by
    intro s hs
    apply Act.ensures_get_bind.mpr
    split
    · rw [hs.capacity]
      exact ensures_fillPage_of_progress (exhausts_step sort root capacity).more _ hs
        (Nat.lt_succ_self _)
    · exact fun _ hok => by cases hok
  ended := by
    intro s hs
    apply Act.ensures_get_bind.mpr
    split
    · exact (exhausts_step sort root s.capacity).ensures_fillPage_of_over _ _ _ hs
    · exact fun _ hok => by cases hok

theorem packsPages (pageSize numBuffers : Nat) (child : Cursor σ) (root : TempRoot) :
    (cursor pageSize numBuffers child).PacksPages root pageSize := by
  refine Cursor.packsPages_of_packs ?_ fun _ => packs pageSize _ root _
  apply Act.ensures_get_bind.mpr
  rw [if_neg (by simp [cursor, overSorted])]
  refine Act.ensures_ofAnswer_bind (fun capacity hcapacity => ?_) fun _ _ hok => by cases hok
  obtain ⟨rfl, hc⟩ := Schema.of_pageCapacity hcapacity
  apply Act.ensures_modify_bind.mpr
  let sort := MergeSort.cursor (sortSpec pageSize numBuffers child.schema) child
  have hopen : sort.openUp.Ensures root sort.start fun answer c =>
      answer = .ok () → sort.RunsDry root c := fun hok => MergeSort.runsDry_of_gives ⟨hok, rfl⟩
  refine Act.Ensures.within_bind hopen (fun _ _ _ hok => by cases hok) fun _ c hc' => ?_
  exact Act.ensures_modify.mpr fun _ => ⟨hc, rfl, hc' rfl⟩

end Distinct

theorem Failure.ofExcept_eq_ok {α : Type} {answer : Except Error α} {a : α} :
    Failure.ofExcept answer = .ok a ↔ answer = .ok a := by
  cases answer <;> simp [Failure.ofExcept]

theorem RunFile.Reader.isDone_of_next {reader reader' : RunFile.Reader}
    (h : reader.next = (.ok none, reader')) : reader'.isDone = true := by
  unfold RunFile.Reader.next at h
  split at h
  · next hdone =>
    cases h
    exact hdone
  · split at h
    · cases h
    · cases h
      rfl
    · cases h

namespace Aggregate

variable {σ : Type} {root : TempRoot} {s : State σ} {columns : List AggregateColumn}

/-- An aggregation behind its last row: that of a query without plain columns, or the last one of the
spool. -/
def HasEnded (columns : List AggregateColumn) (s : State σ) : Prop :=
  if isPure columns then s.isEmitted = true
  else s.pending = [] ∧ ∀ reader, s.spool = some reader → reader.isDone = true

theorem exhausts_pureStep (hpure : isPure columns = true) (root : TempRoot) (capacity : Nat) :
    Step.Exhausts (pureStep columns : Act (State σ) Step) root (remaining columns)
      (·.capacity = capacity) (HasEnded columns) where
  more := by
    intro s hs
    apply Act.ensures_get_bind.mpr
    split
    · next hemitted =>
      refine Act.ensures_pure.mpr ?_
      simpa [Step.IsProgress, HasEnded, hpure] using hemitted
    · next hemitted =>
      apply Act.ensures_set_bind.mpr
      refine Act.ensures_ofExcept_bind (fun row _ => ?_) fun _ _ => trivial
      refine Act.ensures_pure.mpr ⟨hs, ?_⟩
      simp [remaining, hpure, hemitted]
  ended := by
    intro s hs
    have hemitted : s.isEmitted = true := by simpa [HasEnded, hpure] using hs
    apply Act.ensures_get_bind.mpr
    rw [if_pos hemitted]
    exact fun _ hok => (Except.ok.inj hok).symm

theorem ensures_nextSpooled (s : State σ) :
    nextSpooled.Ensures root s fun answer t =>
      (∃ spool, t = { s with spool }) ∧
      (answer = .ok none → ∀ reader, t.spool = some reader → reader.isDone = true) ∧
      ∀ batch, answer = .ok (some batch) →
        batch.length + t.spool.elim 0 (·.input.length) < s.spool.elim 0 (·.input.length) := by
  apply Act.ensures_get_bind.mpr
  cases hspool : s.spool with
  | none =>
    refine Act.ensures_pure.mpr ⟨⟨s.spool, rfl⟩, fun _ reader hreader => ?_, fun _ hok => by cases hok⟩
    cases hspool.symm.trans hreader
  | some reader =>
    have hcost := reader.pageCost_next
    rcases hnext : reader.next with ⟨answer, reader'⟩
    rw [hnext] at hcost
    simp only [hnext]
    refine Act.ensures_set_bind.mpr (Act.ensures_ofExcept.mpr ⟨⟨_, rfl⟩, fun hnone => ?_, ?_⟩)
    · intro last hlast
      obtain rfl := Option.some.inj hlast
      rw [Failure.ofExcept_eq_ok.mp hnone] at hnext
      exact RunFile.Reader.isDone_of_next hnext
    · intro batch hbatch
      rw [Failure.ofExcept_eq_ok.mp hbatch] at hcost
      simp only [pageCost] at hcost
      simp only [Option.elim]
      omega

theorem exhausts_mixedStep (hmixed : isPure columns = false) (root : TempRoot) (capacity : Nat) :
    Step.Exhausts (mixedStep columns : Act (State σ) Step) root (remaining columns)
      (·.capacity = capacity) (HasEnded columns) where
  more := by
    intro s hs
    apply Act.ensures_get_bind.mpr
    cases hpending : s.pending with
    | cons row pending =>
      apply Act.ensures_set_bind.mpr
      refine Act.ensures_ofExcept_bind (fun output _ => ?_) fun _ _ => trivial
      refine Act.ensures_pure.mpr ⟨hs, ?_⟩
      simp only [remaining, hmixed, spooledVolume, hpending, List.length_cons]
      simp
    | nil =>
      refine (ensures_nextSpooled s).bind (fun _ _ _ => trivial) ?_
      rintro (_ | batch) t ⟨⟨spool, rfl⟩, hnone, hsome⟩
      · refine Act.ensures_pure.mpr ?_
        simp only [Step.IsProgress, HasEnded, hmixed]
        exact ⟨hpending, hnone rfl⟩
      · refine Act.ensures_modify_bind.mpr ⟨hs, ?_⟩
        have hless := hsome batch rfl
        simp only [remaining, hmixed, spooledVolume, hpending, List.length_nil, Nat.zero_add]
        exact hless
  ended := by
    intro s hs
    simp only [HasEnded, hmixed, Bool.false_eq_true, if_false] at hs
    obtain ⟨hpending, hspool⟩ := hs
    apply Act.ensures_get_bind.mpr
    rw [hpending]
    have hnone : nextSpooled.Ensures root s fun answer _ => answer = .ok none := by
      apply Act.ensures_get_bind.mpr
      cases hreader : s.spool with
      | none => exact Act.ensures_pure.mpr rfl
      | some reader =>
        simp only [RunFile.Reader.next_of_isDone (hspool reader hreader)]
        exact Act.ensures_set_bind.mpr (Act.ensures_ofExcept.mpr rfl)
    refine hnone.bind (fun _ _ h => by cases h) fun page t hpage => ?_
    cases hpage
    exact fun _ hok => (Except.ok.inj hok).symm

theorem exhausts_step (columns : List AggregateColumn) (root : TempRoot) (capacity : Nat) :
    Step.Exhausts (step columns : Act (State σ) Step) root (remaining columns)
      (·.capacity = capacity) (HasEnded columns) := by
  unfold step
  split
  · next hpure => exact exhausts_pureStep hpure root capacity
  · next hmixed => exact exhausts_mixedStep (Bool.eq_false_iff.mpr hmixed) root capacity

/-- A page is handed on with room left only behind the last row. -/
theorem packs (pageSize : Nat) (columns : List AggregateColumn) (child : Cursor σ) (root : TempRoot)
    {capacity : Nat} (hc : 0 < capacity) :
    (cursor pageSize columns child).Packs root capacity (·.capacity = capacity)
      fun s => s.inputCount = 0 ∨ HasEnded columns s where
  more := by
    intro s hs
    have hsteps : remaining columns s < spooledVolume s + 2 := by
      unfold remaining
      split
      · split <;> omega
      · omega
    apply Act.ensures_get_bind.mpr
    split
    · exact fun _ hok => by cases hok
    · split
      · next hcount =>
        refine Act.ensures_pure.mpr fun page hpage => ⟨[], ?_, .inr ⟨hc, .inl hcount⟩⟩
        exact (Except.ok.inj hpage).symm
      · rw [hs]
        refine (ensures_fillPage_of_progress (exhausts_step columns root capacity).more _ hs
          hsteps).mono ?_
        exact fun _ _ ht => ht.mono .inr
  ended := by
    intro s hs
    apply Act.ensures_get_bind.mpr
    split
    · exact fun _ hok => by cases hok
    · split
      · exact fun _ hok => (Except.ok.inj hok).symm
      · next hcount =>
        exact (exhausts_step columns root s.capacity).ensures_fillPage_of_over _ _ _
          (hs.resolve_left hcount)

section Fixes

variable {child : Cursor σ}

theorem fixes_onFolder {α : Type} (x : Act (Option Folder) α) :
    (onFolder x : Act (State σ) α).Fixes State.capacity := fun _ _ => rfl

theorem fixes_takePages (steps : Nat) (intake : Intake) :
    (takePages child steps intake).Fixes State.capacity := by
  induction steps generalizing intake with
  | zero => exact Act.fixes_pure intake
  | succ steps ih =>
    have hnext : (onChild child.next).Fixes State.capacity := fun _ _ => rfl
    refine hnext.bind ?_
    rintro (_ | batch)
    · exact Act.fixes_pure intake
    · exact (fixes_onFolder _).bind ih

theorem fixes_consume (spoolCapacity : Nat) :
    (consume columns child spoolCapacity).Fixes State.capacity := by
  refine (fixes_onFolder _).bind fun writer => (Act.fixes_ofAnswer _).bind fun page => ?_
  refine Act.fixes_get_bind fun s => (fixes_takePages _ _).bind fun intake => ?_
  split
  · exact Act.fixes_modify fun _ => rfl
  · refine (fixes_onFolder _).bind fun reader => Act.Fixes.bind ?_ fun _ => ?_
    · exact Act.fixes_modify fun _ => rfl
    · exact Act.fixes_modify fun _ => rfl

end Fixes

theorem packsPages (pageSize : Nat) (columns : List AggregateColumn) (child : Cursor σ)
    (root : TempRoot) : (cursor pageSize columns child).PacksPages root pageSize := by
  refine Cursor.packsPages_of_packs ?_ (packs pageSize columns child root)
  apply Act.ensures_get_bind.mpr
  rw [if_neg (by simp [cursor])]
  refine Act.ensures_ofExcept_bind (fun _ _ => ?_) fun _ _ hok => by cases hok
  refine Act.ensures_ofAnswer_bind (fun capacity hcapacity => ?_) fun _ _ hok => by cases hok
  obtain ⟨rfl, hc⟩ := Schema.of_pageCapacity hcapacity
  refine Act.ensures_ofAnswer_bind (fun spoolCapacity _ => ?_) fun _ _ hok => by cases hok
  apply Act.ensures_modify_bind.mpr
  have hopened : (onChild child.openUp).Ensures root
      { (cursor pageSize columns child).start with
        capacity := pageSize / (outputSchema columns child.schema).rowSize } fun _ t =>
      t.capacity = pageSize / (outputSchema columns child.schema).rowSize := rfl
  refine hopened.bind (fun _ _ _ hok => by cases hok) fun _ t ht => ?_
  refine ((fixes_consume spoolCapacity).keeps ht).attempt_bind ?_
  rintro (f | _) u hu
  · exact Act.ensures_modify_bind.mpr fun hok => by cases hok
  · exact Act.ensures_modify.mpr fun _ => ⟨hc, hu⟩

end Aggregate

namespace Join

variable {σ τ : Type} {keys : Keys} {left : Cursor σ} {right : Cursor τ} {root : TempRoot}
  {s : State σ τ}

theorem packs (pageSize numBuffers : Nat) (keys : Keys) (left : Cursor σ) (right : Cursor τ)
    (root : TempRoot) (capacity : Nat) :
    (overSorted pageSize numBuffers keys left right).Packs root capacity
      (phase · = (true, false, capacity)) (·.isAtEnd = true) where
  more := by
    intro s hs
    have hreading := hs
    simp only [phase, Prod.mk.injEq] at hreading
    obtain ⟨hopen, hend, hcapacity⟩ := hreading
    apply Act.ensures_get_bind.mpr
    rw [if_neg (by simp [hopen]), if_neg (by simp [hend]), hcapacity]
    cases hreserve : Draft.reserve capacity with
    | error f => exact fun _ hok => by cases hok
    | ok page =>
      obtain rfl := Draft.eq_empty_of_reserve hreserve
      refine (gather_keeps (fun _ ht => (fixes_step keys _ _).keeps ht) .joinOutput (steps _ _ s)
        (Draft.empty capacity) hs).bind (fun _ _ _ _ hok => by cases hok) ?_
      rintro ⟨size, rows⟩ t ⟨ht, hpage⟩
      obtain ⟨hcapacity, hlength⟩ := hpage _ rfl
      change size = capacity at hcapacity
      change rows.length ≤ capacity at hlength
      rw [hcapacity]
      by_cases hfull : Batch.isFull ⟨capacity, rows⟩ = true
      · rw [if_pos hfull]
        refine Act.ensures_pure.mpr fun page hpage => ⟨rows, (Except.ok.inj hpage).symm, .inl ?_⟩
        exact ⟨Nat.le_antisymm hlength (of_decide_eq_true hfull), ht⟩
      · rw [if_neg hfull]
        refine (ensures_finish left right root t).bind (fun _ _ _ _ hok => by cases hok) ?_
        intro _ u hu
        refine Act.ensures_pure.mpr fun page hpage => ⟨rows, (Except.ok.inj hpage).symm, .inr ?_⟩
        exact ⟨Nat.lt_of_not_le fun h => hfull (decide_eq_true h), hu⟩
  ended := by
    intro s hs
    apply Act.ensures_get_bind.mpr
    split
    · exact fun _ hok => by cases hok
    · exact fun _ hok => (Except.ok.inj hok).symm

theorem packsPages (pageSize numBuffers : Nat) (keys : Keys) (left : Cursor σ) (right : Cursor τ)
    (root : TempRoot) : (cursor pageSize numBuffers keys left right).PacksPages root pageSize := by
  refine Cursor.packsPages_of_packs ?_ fun _ => packs pageSize numBuffers keys _ _ root _
  refine (ensures_openUp_phase pageSize numBuffers rfl rfl).mono fun answer t ht hok => ?_
  subst hok
  obtain ⟨capacity, hphase, hcapacity⟩ := ht
  obtain ⟨rfl, hc⟩ := Schema.of_pageCapacity hcapacity
  exact ⟨hc, hphase⟩

end Join

/-- The pages that an operator gives up to the first none are its rows in pieces of as many as a page has
room for, whatever pages its children give. -/
theorem Cursor.packs_output {σ τ : Type} (child : Cursor σ) (other : Cursor τ) (root : TempRoot) :
    (∀ pageSize schema rows, (RowSource.cursor pageSize schema rows).PacksPages root pageSize) ∧
    ((∀ c, child.openUp.Gives root child.start () c → child.RunsDry root c) →
      ∀ pageSize fields, (Project.cursor pageSize fields child).PacksPages root pageSize) ∧
    (∀ spec, (MergeSort.cursor spec child).PacksPages root spec.pageSize) ∧
    (∀ pageSize numBuffers,
      (Distinct.cursor pageSize numBuffers child).PacksPages root pageSize) ∧
    (∀ pageSize columns, (Aggregate.cursor pageSize columns child).PacksPages root pageSize) ∧
    ∀ pageSize numBuffers keys,
      (Join.cursor pageSize numBuffers keys child other).PacksPages root pageSize :=
  ⟨fun pageSize schema rows => RowSource.packsPages pageSize schema rows root,
    fun hchild pageSize fields => Project.packsPages pageSize fields hchild,
    fun spec => MergeSort.packsPages spec child root,
    fun pageSize numBuffers => Distinct.packsPages pageSize numBuffers child root,
    fun pageSize columns => Aggregate.packsPages pageSize columns child root,
    fun pageSize numBuffers keys => Join.packsPages pageSize numBuffers keys child other root⟩

def unevenPages : List Batch :=
  [⟨4, [[.int 1, .int 10], [.int 2, .int 20], [.int 3, .int 30]]⟩, ⟨1, [[.int 4, .int 40]]⟩,
    ⟨2, [[.int 5, .int 50], [.int 6, .int 60]]⟩]

def unevenChild : Cursor Script :=
  Script.cursor "c" (Sample.intSchema "t" 2) ⟨[], unevenPages.map (.ok <| some ·), []⟩

theorem runsDry_unevenChild : unevenChild.RunsDry ⟨true⟩ unevenChild.start := by
  refine ⟨unevenPages, ⟨[], [], []⟩, .cons ⟨rfl, rfl⟩ (by decide) (.cons ⟨rfl, rfl⟩ (by decide)
    (.cons ⟨rfl, rfl⟩ (by decide) (.nil _))), Cursor.isOver_of_step (P := (· = ⟨[], [], []⟩)) ?_ rfl⟩
  rintro _ rfl
  exact ⟨_, rfl, rfl, rfl⟩

/-- Three pages of two rows are made of these, and the last of them is full. -/
theorem Cursor.packs_output_unevenChild :
    ∃ s t batches,
      (Project.cursor 8 [1] unevenChild).openUp.Gives ⟨true⟩ (Project.cursor 8 [1] unevenChild).start
        () s ∧
      (Project.cursor 8 [1] unevenChild).drain.Gives ⟨true⟩ s (batches, none) t ∧
      batches = [⟨2, [[.int 10], [.int 20]]⟩, ⟨2, [[.int 30], [.int 40]]⟩,
        ⟨2, [[.int 50], [.int 60]]⟩] ∧
      (Project.cursor 8 [1] unevenChild).GivesOut ⟨true⟩ s batches ∧
      Batch.ArePacked 8 4 batches := by
  have hopen : (Project.cursor 8 [1] unevenChild).openUp.Gives ⟨true⟩
      (Project.cursor 8 [1] unevenChild).start () ⟨unevenChild.start, true, 2, []⟩ := ⟨rfl, rfl⟩
  obtain ⟨t, hdrain⟩ : ∃ t, (Project.cursor 8 [1] unevenChild).drain.Gives ⟨true⟩
      ⟨unevenChild.start, true, 2, []⟩ ([⟨2, [[.int 10], [.int 20]]⟩, ⟨2, [[.int 30], [.int 40]]⟩,
        ⟨2, [[.int 50], [.int 60]]⟩], none) t := ⟨_, by decide +kernel, rfl⟩
  have hdry : ∀ c, unevenChild.openUp.Gives ⟨true⟩ unevenChild.start () c →
      unevenChild.RunsDry ⟨true⟩ c := by
    rintro c ⟨-, rfl⟩
    exact runsDry_unevenChild
  obtain ⟨-, hproject, -⟩ := Cursor.packs_output unevenChild unevenChild ⟨true⟩
  exact ⟨_, _, _, hopen, hdrain, rfl, hproject hdry 8 [1] _ _ _ hopen hdrain⟩

end PagedQuery
