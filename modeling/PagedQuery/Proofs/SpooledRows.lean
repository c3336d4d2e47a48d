import PagedQuery.Proofs.AggregateRows
import PagedQuery.Proofs.StoredRuns
import PagedQuery.Proofs.WrittenRuns

namespace PagedQuery

namespace RunFile

variable {α : Type} {x : Act Folder α} {root : TempRoot} {folder written : Folder} {a : α} {f : Failure}

theorem gives_inFolder (h : x.Gives root folder a written) :
    (inFolder x).Gives root (some folder) a (some written) :=
  ensures_inFolder.mpr (Act.Ensures.mono h fun _ _ hx => ⟨hx.1, congrArg some hx.2⟩)

theorem fails_inFolder (h : x.Fails root folder f) : (inFolder x).Fails root (some folder) f := h

end RunFile

namespace Aggregate

variable {columns : List AggregateColumn} {capacity : Nat} {root : TempRoot} {base written : Folder}
  {folder : Option Folder} {rows : List Row} {intake : Intake} {spool : RunFile.RowWriter}

def spoolRows (capacity : Nat) (base : Folder) (rows : List Row) : Act Folder RunFile.RowWriter :=
  rows.foldlM (RunFile.RowWriter.take .aggregateSpool spoolFile)
    ⟨.empty capacity, .start (base.path spoolFile)⟩

theorem spoolRows_append (capacity : Nat) (base : Folder) (rows more : List Row) :
    spoolRows capacity base (rows ++ more) =
      spoolRows capacity base rows >>=
        more.foldlM (RunFile.RowWriter.take .aggregateSpool spoolFile) :=
  List.foldlM_append

theorem encode_of_fails_spoolRows (hc : 0 < capacity) {f : Failure}
    (h : (spoolRows capacity base rows).Fails root (base.put spoolFile []) f) :
    ∃ e, f = .error e ∧
      RunFile.encode (base.path spoolFile) (Batch.pages capacity rows) = .error e := by
  have hcapacity (hzero : capacity = 0) : rows = [] := absurd hzero (Nat.ne_of_gt hc)
  rcases RunFile.gives_or_fails_takeRows .aggregateSpool root hcapacity with ⟨w, t, hgives⟩ | ⟨e, he, hfails⟩
  · exact absurd h hgives.not_fails
  · exact ⟨e, Except.error.inj (h.symm.trans hfails), he⟩

/-- A spool that is finished is read as the rows it has taken, unless the last of them cannot be
written. -/
theorem finishSpool_cases (hc : 0 < capacity)
    (h : (spoolRows capacity base rows).Gives root (base.put spoolFile []) spool written) :
    (∃ content reader,
      RunFile.encode (base.path spoolFile) (Batch.pages capacity rows) = .ok content ∧
      (finishSpool capacity spool).Gives root written reader (base.put spoolFile content) ∧
      reader.HandsOut (Batch.pages capacity rows)) ∨
    ∃ e, RunFile.encode (base.path spoolFile) (Batch.pages capacity rows) = .error e ∧
      (finishSpool capacity spool).Fails root written (.error e) := by
  have hpages : spoolRows capacity base rows >>= (·.finish spoolFile) =
      (Batch.pages capacity rows).foldlM (RunFile.writeBatch spoolFile)
        (.start (base.path spoolFile)) >>= RunFile.finish spoolFile :=
    RunFile.writeRows_start .aggregateSpool fun hzero => absurd hzero (Nat.ne_of_gt hc)
  cases hencode : RunFile.encode (base.path spoolFile) (Batch.pages capacity rows) with
  | error e =>
    have hfails := RunFile.fails_writeBatches_finish root hencode
    rw [← hpages] at hfails
    rcases hfails.of_bind with hfails | ⟨spool', written', hgives, hfails⟩
    · exact absurd hfails h.not_fails
    · obtain ⟨rfl, rfl⟩ := h.unique hgives
      exact .inr ⟨e, rfl, hfails.bind⟩
  | ok content =>
    have hgives := RunFile.gives_writeBatches_finish root hencode
    rw [← hpages] at hgives
    obtain ⟨spool', written', hgives', hfinish⟩ := hgives.of_bind
    obtain ⟨rfl, rfl⟩ := h.unique hgives'
    obtain ⟨reader, hreader, hreads⟩ :=
      (RunFile.isRun_of_encode_pages hc hencode).exists_handsOut
        ((base.put spoolFile content).path spoolFile)
    have hopened : RunFile.Reader.ofFile (base.put spoolFile content) spoolFile capacity =
        .ok reader := by
      rw [RunFile.Reader.ofFile, Folder.read?_put, if_pos rfl]
      exact hreader
    exact .inl ⟨content, reader, rfl,
      hfinish.bind (Act.gives_get_bind.mpr (Act.gives_ofExcept hopened)), hreads⟩

/-- Where the rows of an intake are spooled to: nowhere, or to a file of a folder of their own. -/
inductive Intake.Spools (columns : List AggregateColumn) (capacity : Nat) (root : TempRoot)
    (rows : List Row) : Option RunFile.RowWriter → Option Folder → Prop
  | nowhere {folder : Option Folder} (hpure : isPure columns = true) :
      Spools columns capacity root rows none folder
  | into {base written : Folder} {spool : RunFile.RowWriter} (hmixed : isPure columns = false)
      (hbase : root.makeFolder? "aggregate-" = some base)
      (h : (spoolRows capacity base rows).Gives root (base.put spoolFile []) spool written) :
      Spools columns capacity root rows (some spool) (some written)

/-- Whether an intake has taken these rows, into this folder if it spools them. -/
structure Intake.HasTaken (columns : List AggregateColumn) (capacity : Nat) (root : TempRoot)
    (rows : List Row) (intake : Intake) (folder : Option Folder) : Prop where
  tallies : tally columns rows = .ok intake.tallies
  count : intake.count = rows.length
  spools : Spools columns capacity root rows intake.spool folder

/-- What keeps an intake from taking some rows: they have no tallies, or they cannot be spooled. -/
inductive Intake.Stops (columns : List AggregateColumn) (capacity : Nat) (root : TempRoot)
    (rows : List Row) : Failure → Prop
  | untallied {e : Error} (h : tally columns rows = .error e) :
      Stops columns capacity root rows (.error e)
  | unspooled {base : Folder} {f : Failure} (hmixed : isPure columns = false)
      (hbase : root.makeFolder? "aggregate-" = some base)
      (h : (spoolRows capacity base rows).Fails root (base.put spoolFile []) f) :
      Stops columns capacity root rows f

theorem Intake.Stops.append {f : Failure} (h : Stops columns capacity root rows f) (more : List Row) :
    Stops columns capacity root (rows ++ more) f := by
  cases h with
  | untallied h =>
    refine .untallied ?_
    rw [tally_append, h]
    rfl
  | unspooled hmixed hbase h =>
    refine .unspooled hmixed hbase ?_
    rw [spoolRows_append]
    exact h.bind

theorem Intake.HasTaken.takeRow (row : Row) (h : intake.HasTaken columns capacity root rows folder) :
    (intake.takeRow row).Attains root folder
      (fun intake' => intake'.HasTaken columns capacity root (rows ++ [row]))
      (Stops columns capacity root (rows ++ [row])) := by
  obtain ⟨htallies, hcount, hspools⟩ := h
  have hcount' : intake.count + 1 = (rows ++ [row]).length := by
    rw [List.length_append, hcount]
    rfl
  have htally : tally columns (rows ++ [row]) = intake.tallies.mapM (Tally.takeRow row) := by
    rw [tally_append, htallies]
    change (intake.tallies.mapM (Tally.takeRow row) >>= pure) = _
    rw [bind_pure]
  have hspool (base : Folder) : spoolRows capacity base (rows ++ [row]) =
      spoolRows capacity base rows >>= (·.take .aggregateSpool spoolFile row) := by
    simp only [spoolRows_append, List.foldlM_cons, List.foldlM_nil, bind_pure]
  refine Act.ensures_ofExcept_bind (fun ts hts => ?_) fun e he => .untallied (htally.trans he)
  cases hnow : intake.spool with
  | none =>
    rw [hnow] at hspools
    cases hspools with
    | nowhere hpure => exact Act.attains_pure.mpr ⟨htally.trans hts, hcount', .nowhere hpure⟩
  | some spool =>
    rw [hnow] at hspools
    cases hspools with
    | @into base written _ hmixed hbase htaken =>
      rcases Act.gives_or_fails (spool.take .aggregateSpool spoolFile row) root written with
        ⟨spool', written', htake⟩ | ⟨f, htake⟩
      · refine (RunFile.gives_inFolder htake).bind_attains (Act.attains_pure.mpr ?_)
        refine ⟨htally.trans hts, hcount', .into hmixed hbase ?_⟩
        rw [hspool]
        exact htaken.bind htake
      · have hstops : Stops columns capacity root (rows ++ [row]) f := by
          refine .unspooled hmixed hbase ?_
          rw [hspool]
          exact htaken.bind_fails htake
        have hfails := (RunFile.fails_inFolder htake).bind (f := fun spool =>
          (pure ⟨ts, intake.count + 1, some spool⟩ : Act (Option Folder) Intake))
        exact hfails.failsIn.ensures fun _ _ => hstops

theorem Intake.HasTaken.takeRows (more : List Row)
    (h : intake.HasTaken columns capacity root rows folder) :
    (more.foldlM Intake.takeRow intake).Attains root folder
      (fun intake' => intake'.HasTaken columns capacity root (rows ++ more))
      (Stops columns capacity root (rows ++ more)) := by
  induction more generalizing intake rows folder with
  | nil =>
    rw [List.append_nil]
    exact Act.attains_pure.mpr h
  | cons row more ih =>
    rw [List.foldlM_cons, List.append_cons]
    refine Act.Attains.bind ((h.takeRow row).mono (fun _ _ ht => ht) fun f hf => hf.append more) ?_
    exact fun _ _ ht => ih ht

/-- An aggregation begins with nothing taken, unless it cannot make the folder it needs. -/
theorem attains_startSpool (columns : List AggregateColumn) (capacity : Nat) (root : TempRoot)
    (folder : Option Folder) :
    (startSpool columns).Attains root folder
      (fun writer => Intake.HasTaken columns capacity root []
        ⟨tallies columns, 0, writer.map (⟨.empty capacity, ·⟩)⟩)
      fun f => f = .error .io ∧ isPure columns = false ∧
        root.makeFolder? "aggregate-" = none := by
  unfold startSpool
  split
  · next hpure => exact Act.attains_pure.mpr ⟨rfl, rfl, .nowhere hpure⟩
  · next hmixed =>
    have hmixed : isPure columns = false := Bool.eq_false_iff.mpr hmixed
    refine Act.ensures_tempRoot_bind.mpr ?_
    cases hbase : root.makeFolder? "aggregate-" with
    | none => exact ⟨rfl, hmixed, rfl⟩
    | some base => exact ⟨rfl, rfl, .into hmixed hbase Act.gives_pure⟩

def endIntake (capacity : Nat) (intake : Intake) : Act (Option Folder) (List Tally) := do
  match intake.spool with
  | none => pure intake.tallies
  | some spool =>
    let _ ← RunFile.inFolder (finishSpool capacity spool)
    pure intake.tallies

/-- Takes rows in as an aggregation does, without the pages that they come on. -/
def takeAll (columns : List AggregateColumn) (capacity : Nat) (rows : List Row) :
    Act (Option Folder) (List Tally) := do
  let writer ← startSpool columns
  let page ← Act.ofAnswer (Draft.reserve capacity)
  let intake ← rows.foldlM Intake.takeRow ⟨tallies columns, 0, writer.map (⟨page, ·⟩)⟩
  endIntake capacity intake

def ending (columns : List AggregateColumn) (capacity : Nat) (root : TempRoot) (rows : List Row) :
    Except Failure (List Tally) :=
  ((takeAll columns capacity rows).run root none).answer

/-- Whether rows are tallied, and can be written where they are spooled. -/
structure IsTakenIn (columns : List AggregateColumn) (capacity : Nat) (root : TempRoot)
    (rows : List Row) (ts : List Tally) : Prop where
  memory : fitsMemory capacity Batch.rowRoom = true
  tallies : tally columns rows = .ok ts
  spooled : isPure columns = false → ∃ base content, root.makeFolder? "aggregate-" = some base ∧
    RunFile.encode (base.path spoolFile) (Batch.pages capacity rows) = .ok content

/-- Why rows are not taken in. -/
inductive IntakeFault (columns : List AggregateColumn) (capacity : Nat) (root : TempRoot)
    (rows : List Row) : Failure → Prop
  | folder (hmixed : isPure columns = false) (h : root.makeFolder? "aggregate-" = none) :
      IntakeFault columns capacity root rows (.error .io)
  | memory (h : ¬fitsMemory capacity Batch.rowRoom = true) :
      IntakeFault columns capacity root rows .outOfMemory
  | untallied {e : Error} (hmemory : fitsMemory capacity Batch.rowRoom = true)
      (h : tally columns rows = .error e) : IntakeFault columns capacity root rows (.error e)
  | unwritten {base : Folder} {e : Error} (hmixed : isPure columns = false)
      (hbase : root.makeFolder? "aggregate-" = some base)
      (h : RunFile.encode (base.path spoolFile) (Batch.pages capacity rows) = .error e) :
      IntakeFault columns capacity root rows (.error e)

theorem IntakeFault.of_stops (hc : 0 < capacity) (hmemory : fitsMemory capacity Batch.rowRoom = true)
    {f : Failure} (h : Intake.Stops columns capacity root rows f) :
    IntakeFault columns capacity root rows f := by
  cases h with
  | untallied h => exact .untallied hmemory h
  | unspooled hmixed hbase h =>
    obtain ⟨e, rfl, he⟩ := encode_of_fails_spoolRows hc h
    exact .unwritten hmixed hbase he

theorem attains_takeAll (columns : List AggregateColumn) (hc : 0 < capacity) (root : TempRoot)
    (folder : Option Folder) (rows : List Row) :
    (takeAll columns capacity rows).Attains root folder
      (fun ts _ => IsTakenIn columns capacity root rows ts)
      (IntakeFault columns capacity root rows) := by
  have hstart := attains_startSpool columns capacity root folder
  refine Act.Attains.bind (hstart.mono (fun _ _ ht => ht) ?_) fun writer folder' hempty => ?_
  · rintro _ ⟨rfl, hmixed, hnone⟩
    exact .folder hmixed hnone
  by_cases hmemory : fitsMemory capacity Batch.rowRoom = true
  · refine (Act.gives_ofAnswer (Draft.reserve_of_fitsMemory hmemory)).bind_attains ?_
    have hrows := hempty.takeRows rows
    refine Act.Attains.bind (hrows.mono (fun _ _ ht => ht) fun _ => .of_stops hc hmemory) ?_
    intro intake folder'' htaken
    rw [List.nil_append] at htaken
    obtain ⟨htallies, -, hspools⟩ := htaken
    unfold endIntake
    cases hnow : intake.spool with
    | none =>
      rw [hnow] at hspools
      cases hspools with
      | nowhere hpure =>
        exact Act.attains_pure.mpr ⟨hmemory, htallies, fun hmixed => by
          cases hpure.symm.trans hmixed⟩
    | some spool =>
      rw [hnow] at hspools
      cases hspools with
      | @into base written _ hmixed hbase h =>
        rcases finishSpool_cases hc h with ⟨content, reader, hencode, hfinish, -⟩ | ⟨e, he, hfinish⟩
        · refine (RunFile.gives_inFolder hfinish).bind_attains (Act.attains_pure.mpr ?_)
          exact ⟨hmemory, htallies, fun _ => ⟨base, content, hbase, hencode⟩⟩
        · have hfails := (RunFile.fails_inFolder hfinish).bind (f := fun _ =>
            (pure intake.tallies : Act (Option Folder) (List Tally)))
          exact hfails.failsIn.ensures fun _ _ => .unwritten hmixed hbase he
  · have hnone : Draft.reserve capacity = .error .outOfMemory := by
      rw [Draft.reserve, Batch.reserve, if_neg hmemory]
      rfl
    refine Act.ensures_ofAnswer_bind (fun page hpage => ?_) fun f hf => ?_
    · cases hnone.symm.trans hpage
    · obtain rfl := Except.error.inj (hnone.symm.trans hf)
      exact .memory hmemory

/-- Taking rows in tallies them, or fails for one of these reasons. -/
theorem ending_spec (columns : List AggregateColumn) (hc : 0 < capacity) (root : TempRoot)
    (rows : List Row) :
    match ending columns capacity root rows with
    | .ok ts => IsTakenIn columns capacity root rows ts
    | .error f => IntakeFault columns capacity root rows f := by
  have hall := attains_takeAll columns hc root none rows
  cases hending : ending columns capacity root rows with
  | ok ts => exact hall.of_gives ⟨hending, rfl⟩
  | error f => exact hall.of_fails hending

theorem takeRows_of_no_spool (rows : List Row) (ts : List Tally) (n : Nat) :
    rows.foldlM Intake.takeRow ⟨ts, n, none⟩ =
      Act.ofExcept (rows.foldlM (fun ts row => ts.mapM (Tally.takeRow row)) ts) >>= fun ts' =>
        pure ⟨ts', n + rows.length, none⟩ := by
  induction rows generalizing ts n with
  | nil => rfl
  | cons row rows ih =>
    have hrow : Intake.takeRow ⟨ts, n, none⟩ row = Act.ofExcept (ts.mapM (Tally.takeRow row)) >>=
        fun ts' => pure ⟨ts', n + 1, none⟩ := rfl
    rw [List.foldlM_cons, List.foldlM_cons, hrow]
    cases ts.mapM (Tally.takeRow row) with
    | error e => rfl
    | ok ts' =>
      have hcount : n + 1 + rows.length = n + (row :: rows).length := by
        rw [List.length_cons]
        omega
      rw [← hcount]
      exact ih ts' (n + 1)

/-- A folder that was there before does not matter. -/
theorem answer_takeAll (columns : List AggregateColumn) (capacity : Nat) (root : TempRoot)
    (rows : List Row) (folder : Option Folder) :
    ((takeAll columns capacity rows).run root folder).answer = ending columns capacity root rows := by
  unfold ending takeAll startSpool
  by_cases hpure : isPure columns = true
  · rw [if_pos hpure]
    simp only [pure_bind, Option.map_none, takeRows_of_no_spool, bind_assoc]
    cases Draft.reserve capacity with
    | error f => rfl
    | ok page =>
      cases rows.foldlM (fun ts row => ts.mapM (Tally.takeRow row)) (tallies columns) <;> rfl
  · rw [if_neg hpure]
    cases hbase : root.makeFolder? "aggregate-" with
    | none => simp [Act.run_bind, hbase]
    | some base =>
      simp only [Act.run_bind, Act.run_tempRoot, hbase]
      rfl

theorem ending_of_gives {ts : List Tally} {folder' : Option Folder}
    (h : (takeAll columns capacity rows).Gives root folder ts folder') :
    ending columns capacity root rows = .ok ts :=
  (answer_takeAll columns capacity root rows folder).symm.trans h.1

theorem ending_of_fails {f : Failure} (h : (takeAll columns capacity rows).Fails root folder f) :
    ending columns capacity root rows = .error f := by
  rw [← answer_takeAll columns capacity root rows folder]
  exact h

end Aggregate
end PagedQuery
