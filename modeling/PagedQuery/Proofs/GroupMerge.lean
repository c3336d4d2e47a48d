import PagedQuery.Proofs.LongPages
import PagedQuery.Proofs.PackedPages

/-!
# Merging a group of runs

A merge of sorted runs writes the stable sort of their rows, run after run, on full pages. Its
lanes are ordered by keys that were taken out of the rows, and in the direction of the sort; this
is how the rows themselves are compared, and of rows with equal keys that of the earlier run comes
first in both directions. A merge fails where the file cannot be made, there is no memory for a
page, or a page gets more rows than a run can count.
-/

namespace PagedQuery

section Row

variable {key : List Nat} {row values : Row}

theorem Row.hasKey_of_project? (h : Row.project? row key = some values) :
    Row.HasKey key row ∧ values = Row.keyOf key row := by
  have hkey : Row.HasKey key row := by
    rw [Row.project?] at h
    induction key generalizing values with
    | nil => exact List.forall_mem_nil _
    | cons i key ih =>
      simp only [List.mapM_cons, Option.bind_eq_bind, Option.pure_def, Option.bind_eq_some_iff] at h
      obtain ⟨field, hfield, rest, hrest, -⟩ := h
      exact List.forall_mem_cons.mpr ⟨(List.getElem?_eq_some_iff.mp hfield).1, ih hrest⟩
  rw [Row.project?_of_hasKey hkey] at h
  exact ⟨hkey, (Option.some.inj h).symm⟩

/-- Lanes are ordered like their rows, and where these are alike by their runs. -/
theorem Lane.order_eq_lt_iff {ρ : Type} {descending : Bool} {a b : Lane ρ}
    (ha : Row.project? a.row key = some a.key) (hb : Row.project? b.row key = some b.key) :
    Lane.order descending a b = .lt ↔
      Row.compareDirected? a.row b.row key key descending = some .lt ∨
        Row.compareDirected? a.row b.row key key descending = some .eq ∧ a.run < b.run := by
  obtain ⟨hkey, hvalues⟩ := Row.hasKey_of_project? ha
  obtain ⟨hkey', hvalues'⟩ := Row.hasKey_of_project? hb
  rw [Row.compareDirected?, Row.compareOn?_of_hasKey hkey hkey' rfl, ← hvalues, ← hvalues',
    Option.map_some, Lane.order, Ordering.then_eq_lt, Option.some_inj, Option.some_inj]
  exact or_congr_right (and_congr_right fun _ => Nat.compare_eq_lt)

end Row

namespace RunFile

theorem isStorable_of_encodeRow {row : Row} {bytes : Bytes} (h : encodeRow row = .ok bytes) :
    row.IsStorable := by
  obtain ⟨hwidth, fields, hfields, -⟩ := encodeRow_eq_ok_iff.mp h
  refine ⟨by omega, fun text htext => ?_⟩
  obtain ⟨piece, hpiece⟩ := exists_of_forall₂ hfields _ htext
  by_contra hlong
  rw [encodeField, if_neg hlong] at hpiece
  cases hpiece

end RunFile

namespace StoredRun

variable {capacity : Nat}

theorem spellsBatch_of_mem (run : StoredRun capacity) {batch : Batch} (h : batch ∈ run.batches) :
    ∃ bytes, Scan.SpellsBatch capacity (some batch) bytes := by
  obtain ⟨bodies, hbodies, -⟩ := run.isRun
  exact exists_of_forall₂ hbodies batch h

theorem isStorable (run : StoredRun capacity) : ∀ row ∈ run.rows, row.IsStorable := by
  intro row hrow
  obtain ⟨batch, hbatch, hrow⟩ := List.mem_flatMap.mp hrow
  obtain ⟨bytes, -, hrows, -, hencode⟩ := run.spellsBatch_of_mem hbatch
  obtain ⟨-, pieces, hpieces, -⟩ := (RunFile.encodeBatch_eq_ok_iff hrows).mp (hencode "")
  obtain ⟨piece, hpiece⟩ := exists_of_forall₂ hpieces row hrow
  exact RunFile.isStorable_of_encodeRow hpiece

theorem rows_eq_nil (run : StoredRun 0) : run.rows = [] := by
  rw [rows, List.flatMap_eq_nil_iff]
  intro batch hbatch
  obtain ⟨bytes, -, -, hle, -⟩ := run.spellsBatch_of_mem hbatch
  exact List.length_eq_zero_iff.mp (Nat.le_zero.mp hle)

end StoredRun

/-- Rows that can be stored make a run, on pages that are full but for the last. -/
theorem exists_storedRun (capacity : Nat) (rows : List Row) (hrows : capacity = 0 → rows = [])
    (hcount : min capacity rows.length < 0x100000000) (hstorable : ∀ row ∈ rows, row.IsStorable)
    (name path : String) :
    ∃ run : StoredRun capacity, run.name = name ∧ run.batches = Batch.pages capacity rows ∧
      run.rows = rows ∧ RunFile.encode path run.batches = .ok run.content ∧
      ∀ page ∈ run.batches.dropLast, page.length = capacity := by
  rcases Nat.eq_zero_or_pos capacity with rfl | hpos
  · obtain rfl := hrows rfl
    exact ⟨⟨name, [], _, [], .nil, rfl⟩, rfl, rfl, rfl, rfl, List.forall_mem_nil _⟩
  · obtain ⟨content, hencode⟩ := RunFile.exists_encode_pages hpos hcount hstorable path
    exact ⟨⟨name, _, content, RunFile.isRun_of_encode_pages hpos hencode⟩, rfl, rfl,
      Batch.flatMap_rows_pages hpos rows, hencode,
      fun _ hpage => Batch.length_of_mem_dropLast_pages hpos hpage⟩

namespace RunSet

variable {spec : SortSpec} {capacity : Nat} {root : TempRoot} {s : RunSet} {folder : Folder}
  {group : List (StoredRun capacity)} {file : String}

/-- The rows of stored runs can be stored in order as one more run. -/
theorem exists_sorted (spec : SortSpec) (group : List (StoredRun capacity))
    (hcount : min capacity (group.flatMap StoredRun.rows).length < 0x100000000)
    (name path : String) :
    (capacity = 0 → Row.sortBy spec.key spec.descending (group.flatMap StoredRun.rows) = []) ∧
    ∃ run : StoredRun capacity, run.name = name ∧
      run.batches = Batch.pages capacity
        (Row.sortBy spec.key spec.descending (group.flatMap StoredRun.rows)) ∧
      run.rows = Row.sortBy spec.key spec.descending (group.flatMap StoredRun.rows) ∧
      RunFile.encode path run.batches = .ok run.content ∧
      ∀ page ∈ run.batches.dropLast, page.length = capacity := by
  have hall := Row.sortBy_perm spec.key spec.descending (group.flatMap StoredRun.rows)
  have hnone : capacity = 0 →
      Row.sortBy spec.key spec.descending (group.flatMap StoredRun.rows) = [] := by
    rintro rfl
    have hempty : group.flatMap StoredRun.rows = [] :=
      List.flatMap_eq_nil_iff.mpr fun run _ => run.rows_eq_nil
    rw [hempty]
    exact List.mergeSort_nil
  have hstorable : ∀ row ∈ Row.sortBy spec.key spec.descending (group.flatMap StoredRun.rows),
      row.IsStorable := by
    intro row hrow
    obtain ⟨run, -, hrow⟩ := List.mem_flatMap.mp (hall.mem_iff.mp hrow)
    exact run.isStorable row hrow
  rw [← hall.length_eq] at hcount
  exact ⟨hnone, exists_storedRun capacity _ hnone hcount hstorable name path⟩

/-- Whether a group of runs can be merged: there are some and not too many, they lie in the folder,
and their rows can be ordered by the key and are in order in each of them. -/
structure CanMerge (spec : SortSpec) (folder : Folder) (group : List (StoredRun capacity)) :
    Prop where
  count_pos : 1 ≤ group.length
  fanIn : group.length ≤ spec.numBuffers - 1
  readable : ∀ run ∈ group, folder.read? run.name = some run.content
  ordered : Row.AreOrderedOn spec.key (group.flatMap StoredRun.rows)
  sorted : ∀ run ∈ group, run.rows.Pairwise fun a b =>
    Row.precedesOn spec.key spec.descending a b = true

/-- A merge comes to the stable sort of the rows of its runs, run after run. -/
theorem CanMerge.mergeStreams_eq (h : CanMerge spec folder group) :
    mergeStreams spec.key spec.descending ((group.map StoredRun.rows).map (⟨·, none⟩)) =
      .ok (Row.sortBy spec.key spec.descending (group.flatMap StoredRun.rows)) := by
  obtain ⟨o⟩ := KeyOrder.nonempty_of_areOrderedOn h.ordered spec.descending
  have hsorted : AreSorted o (group.map StoredRun.rows) := by
    intro rows hrows
    obtain ⟨run, hrun, rfl⟩ := List.mem_map.mp hrows
    have hsub : run.rows ⊆ group.flatMap StoredRun.rows := fun row hrow =>
      List.mem_flatMap.mpr ⟨run, hrun, hrow⟩
    refine ⟨hsub, (h.sorted run hrun).imp_of_mem fun ha hb hab => ?_⟩
    rwa [← o.precedesOn_eq (hsub ha) (hsub hb)]
  rw [PagedQuery.mergeStreams_eq o hsorted, o.sortBy_eq (List.Subset.refl _)]
  rfl

/-- Once its runs are open, merging them is writing the stable sort of their rows. -/
theorem CanMerge.ensures_mergeGroup {post : Except Failure Unit → RunSet → Prop}
    (h : CanMerge spec folder group) (hfolder : s.folder = some folder)
    (hwrite : ∀ steps lanes, Lane.merge spec.key spec.descending steps (lanes.map Lane.view) =
        .ok (Row.sortBy spec.key spec.descending (group.flatMap StoredRun.rows)) →
      (writeMerged spec capacity file steps lanes).Ensures root folder fun answer t =>
        post answer { s.counting group.length with folder := some t }) :
    (mergeGroup spec capacity (group.map StoredRun.name) file).Ensures root s post := by
  have hne : group ≠ [] := List.length_pos_iff.mp h.count_pos
  have hfan := h.fanIn
  obtain ⟨readers, hreaders, hstreams⟩ := exists_readers h.readable
  have hmerge := h.mergeStreams_eq
  rw [← hstreams] at hmerge
  rw [← List.length_map StoredRun.name] at hwrite
  refine ensures_mergeGroup_of_readers (by simpa using hne) (by simpa using hfan) hfolder hreaders
    (fun lanes hlanes => hwrite _ lanes ((merge_ofReaders _ hlanes).2.trans hmerge)) fun e he => ?_
  obtain ⟨streams, hstreams', -⟩ := exists_of_bind_eq_ok hmerge
  rw [Lane.ofStreams_stream, he] at hstreams'
  cases hstreams'

/-- A merge of sorted runs writes a run that is read as the stable sort of their rows, run after
run, on pages that are full but for the last; it leaves all other files as they are. Of two lanes
of a merge that one goes first whose row comes before the other in the direction of the sort, or is
like it and is of the earlier run. -/
theorem merges_stably (root : TempRoot) (hfolder : s.folder = some folder)
    (hgroup : CanMerge spec folder group) (hname : Path.isName file 0 = true)
    (hnew : ∀ run ∈ group, run.name ≠ file)
    (hmemory : fitsMemory capacity Batch.rowRoom = true)
    (hcount : min capacity (group.flatMap StoredRun.rows).length < 0x100000000) :
    (∃ (merged : StoredRun capacity) (folder' : Folder),
      (mergeGroup spec capacity (group.map StoredRun.name) file).Gives root s ()
        { s.counting group.length with folder := some folder' } ∧
      Row.sortOn? spec.key spec.descending (group.flatMap StoredRun.rows) = some merged.rows ∧
      merged.rows = (group.flatMap StoredRun.rows).mergeSort
        (Row.precedesOn spec.key spec.descending) ∧
      (∀ page ∈ merged.batches.dropLast, page.length = capacity) ∧
      folder'.read? file = some merged.content ∧
      (∃ reader, RunFile.Reader.ofFile folder' file capacity = .ok reader ∧
        reader.HandsOut merged.batches) ∧
      (∀ other, other ≠ file → folder'.read? other = folder.read? other) ∧
      ∀ run ∈ group, folder'.read? run.name = some run.content) ∧
    ∀ (key : List Nat) (descending : Bool) (ρ : Type) (a b : Lane ρ),
      Row.project? a.row key = some a.key → Row.project? b.row key = some b.key →
      (Lane.order descending a b = .lt ↔
        Row.compareDirected? a.row b.row key key descending = some .lt ∨
          Row.compareDirected? a.row b.row key key descending = some .eq ∧ a.run < b.run) := by
  refine ⟨?_, fun key descending ρ a b ha hb => Lane.order_eq_lt_iff ha hb⟩
  obtain ⟨hnone, merged, rfl, hbatches, hrows, hencode, hfull⟩ :=
    exists_sorted spec group hcount file (folder.path file)
  have hread : (folder.put merged.name merged.content).read? merged.name = some merged.content := by
    rw [Folder.read?_put, if_pos rfl]
  have hothers : ∀ other, other ≠ merged.name →
      (folder.put merged.name merged.content).read? other = folder.read? other := by
    intro other hne
    rw [Folder.read?_put, if_neg hne]
  obtain ⟨reader, hopen, hhands⟩ := merged.isRun.exists_handsOut
    ((folder.put merged.name merged.content).path merged.name)
  refine ⟨merged, _, hgroup.ensures_mergeGroup hfolder fun steps lanes hmerge => ?_,
    ?_, hrows, hfull, hread, ⟨reader, ?_, hhands⟩, hothers, fun run hrun => ?_⟩
  · rw [writeMerged_eq_write hmemory hmerge hnone, ← hbatches]
    exact (RunFile.gives_write hname hencode).ensures ⟨rfl, rfl⟩
  · rw [hrows]
    exact Row.sortOn?_of_hasKey hgroup.ordered.hasKey
  · rw [RunFile.Reader.ofFile, hread]
    exact hopen
  · rw [hothers run.name (hnew run hrun)]
    exact hgroup.readable run hrun

def fallingRows : List Row × List Row :=
  ([[.int 2, .int 1], [.int 1, .int 2], [.int 1, .int 3]],
    [[.float ⟨0x4000000000000000⟩, .int 4], [.int 1, .int 5], [.null, .int 6]])

/-- Rows with equal keys come in the order of their runs in a descending sort too. -/
theorem merges_stably_fallingRows :
    ∃ (first second merged : StoredRun 2) (folder folder' : Folder),
      first.rows = fallingRows.1 ∧ second.rows = fallingRows.2 ∧
      (mergeGroup ⟨8, 3, "s", [0], true⟩ 2 [first.name, second.name] "s-merge-1-0").Gives ⟨true⟩
        ⟨some folder, [first.name, second.name], {}⟩ ()
        ⟨some folder', [first.name, second.name], { maxFanIn := 2 }⟩ ∧
      folder'.read? "s-merge-1-0" = some merged.content ∧
      merged.rows = [[.int 2, .int 1], [.float ⟨0x4000000000000000⟩, .int 4], [.int 1, .int 2],
        [.int 1, .int 3], [.int 1, .int 5], [.null, .int 6]] := by
  obtain ⟨first, hfirst, -, hrows, -⟩ :=
    exists_storedRun 2 fallingRows.1 nofun (by decide) (by decide) "s-run-1" ""
  obtain ⟨second, hsecond, -, hrows', -⟩ :=
    exists_storedRun 2 fallingRows.2 nofun (by decide) (by decide) "s-run-2" ""
  let folder : Folder := ⟨"s-sort-", true, [first.entry, second.entry]⟩
  have hall : [first, second].flatMap StoredRun.rows = fallingRows.1 ++ fallingRows.2 := by
    rw [List.flatMap_cons, List.flatMap_cons, List.flatMap_nil, List.append_nil, hrows, hrows']
  have hread : folder.read? first.name = some first.content ∧
      folder.read? second.name = some second.content := by
    rw [hfirst, hsecond]
    simp [folder, Folder.read?, StoredRun.entry, hfirst, hsecond, List.lookup_cons]
  have hgroup : CanMerge ⟨8, 3, "s", [0], true⟩ folder [first, second] := by
    refine ⟨by simp, by simp, ?_, ?_, ?_⟩
    · rwa [List.forall_mem_cons, List.forall_mem_singleton]
    · rw [hall]
      decide
    · rw [List.forall_mem_cons, List.forall_mem_singleton, hrows, hrows']
      decide +kernel
  have hname : Path.isName "s-merge-1-0" 0 = true := by decide
  have hnew : ∀ run ∈ [first, second], run.name ≠ "s-merge-1-0" := by
    rw [List.forall_mem_cons, List.forall_mem_singleton, hfirst, hsecond]
    decide
  have hcount : min 2 ([first, second].flatMap StoredRun.rows).length < 0x100000000 := by
    rw [hall]
    decide
  obtain ⟨⟨merged, folder', hgives, hsorted, -, -, hread, -⟩, -⟩ :=
    merges_stably (s := ⟨some folder, [first.name, second.name], {}⟩) ⟨true⟩ rfl hgroup hname hnew
      (by decide) hcount
  refine ⟨first, second, merged, folder, folder', hrows, hrows', hgives, hread, ?_⟩
  rw [hall] at hsorted
  exact Option.some.inj (hsorted.symm.trans (by decide +kernel))

/-- A sort of rows with one integer by it, on pages of so many of them. -/
def onZeros (capacity : Nat) : SortSpec := ⟨4 * capacity, 3, "s", [0], false⟩

def folderOf (run : StoredRun capacity) : Folder := ⟨"s-sort-", true, [run.entry]⟩

theorem canMerge_zeros {run : StoredRun capacity} (hrows : ∀ row ∈ run.rows, row = [.int 0]) :
    CanMerge (onZeros capacity) (folderOf run) [run] := by
  have hall : [run].flatMap StoredRun.rows = run.rows := by
    rw [List.flatMap_cons, List.flatMap_nil, List.append_nil]
  refine ⟨Nat.le_refl 1, Nat.le_succ 1, ?_, ?_, ?_⟩
  · rw [List.forall_mem_singleton]
    exact List.lookup_cons_self
  · rw [hall]
    refine ⟨fun row hrow => ?_, fun position hposition => .inl fun field hfield => ?_⟩
    · rw [hrows row hrow]
      change Row.HasKey [0] [.int 0]
      decide
    · obtain rfl := List.mem_singleton.mp hposition
      obtain ⟨row, hrow, hfield⟩ := List.mem_filterMap.mp hfield
      rw [hrows row hrow] at hfield
      obtain rfl := Option.some.inj hfield
      decide
  · rw [List.forall_mem_singleton]
    refine List.pairwise_of_forall_mem_list fun a ha b hb => ?_
    rw [hrows a ha, hrows b hb]
    change Row.precedesOn [0] false [.int 0] [.int 0] = true
    decide

section Limits

variable {steps : Nat} {lanes : List (Lane RunFile.RowReader)}

theorem fails_writeMerged_of_name (hname : Path.isName file 0 = false) :
    (writeMerged spec capacity file steps lanes).Fails root folder (.error .io) :=
  (RunFile.failsIn_orRemove_of_name hname).fails

theorem fails_writeMerged_of_memory (hname : Path.isName file 0 = true)
    (hmemory : fitsMemory capacity Batch.rowRoom = false) :
    (writeMerged spec capacity file steps lanes).Fails root folder .outOfMemory := by
  have hreserve : Draft.reserve capacity = .error .outOfMemory := by
    rw [Draft.reserve, Batch.reserve, if_neg (by simp [hmemory])]
    rfl
  have hfails : (Act.ofAnswer (Draft.reserve capacity) : Act Folder Draft).Fails root
      (folder.put file []) .outOfMemory := by
    rw [hreserve]
    exact rfl
  exact RunFile.fails_orRemove ((RunFile.gives_create hname).bind_fails hfails.bind)

/-- Rows that do not go on one page of a run, though they can stand on one in memory. -/
theorem fails_writeMerged_of_count {rows : List Row} (hname : Path.isName file 0 = true)
    (hmemory : fitsMemory capacity Batch.rowRoom = true)
    (hmerge : Lane.merge spec.key spec.descending steps (lanes.map Lane.view) = .ok rows)
    (hroom : rows.length ≤ capacity) (hlong : 0x100000000 ≤ rows.length) :
    (writeMerged spec capacity file steps lanes).Fails root folder
      (.error (.runFile (folder.path file) .batchTooLarge)) := by
  have hpos : 0 < capacity := by omega
  have hpage : 0x100000000 ≤ (⟨capacity, rows⟩ : Batch).length := hlong
  have hone : Batch.pages capacity rows = [⟨capacity, rows⟩] := by
    rw [Batch.pages, chunks_of_length_le hpos (List.length_pos_iff.mp (by omega)) hroom]
    rfl
  rw [writeMerged_eq_write hmemory hmerge (by omega), hone]
  exact (RunFile.failsIn_write hname (RunFile.encode_long_page _ hpage)).fails

end Limits

/-- Half of the rows that are too many for a page of a run. -/
def zeros : Batch := ⟨0x100000000, List.replicate 0x80000000 [.int 0]⟩

theorem exists_zeros (name : String) :
    ∃ run : StoredRun 0x100000000, run.name = name ∧ run.batches = [zeros, zeros] := by
  have hrows : ∀ row ∈ zeros.rows, row.IsStorable := by
    intro row hrow
    rw [List.eq_of_mem_replicate hrow]
    decide
  have hlength : zeros.length = 0x80000000 := List.length_replicate
  obtain ⟨bytes, hbytes⟩ :=
    RunFile.exists_encodeBatch_of_isStorable (by rw [hlength]; decide) hrows ""
  have hspells := RunFile.spellsBatch_of_encodeBatch
    (List.length_pos_iff.mp (show 0 < zeros.length by rw [hlength]; decide))
    (show zeros.length ≤ 0x100000000 by rw [hlength]; decide) hbytes
  exact ⟨⟨name, [zeros, zeros], _, _, .cons hspells (.cons hspells .nil), rfl⟩, rfl, rfl⟩

def longName : String := String.ofList (List.replicate 256 'a')

/-- Runs that are as they should be are not merged if the file cannot be made, if there is no
memory for a page, or if more rows come together on a page than a run can count. -/
theorem mergeGroup_fails_beyond_limits :
    (∃ run : StoredRun 1, run.rows = [[.int 0]] ∧ run.name ≠ longName ∧
      CanMerge (onZeros 1) (folderOf run) [run] ∧
      (mergeGroup (onZeros 1) 1 [run.name] longName).Fails ⟨true⟩
        ⟨some (folderOf run), [run.name], {}⟩ (.error .io)) ∧
    (∃ run : StoredRun 0x1000000000000000, run.rows = [[.int 0]] ∧ run.name ≠ "s-merge-1-0" ∧
      CanMerge (onZeros 0x1000000000000000) (folderOf run) [run] ∧
      (mergeGroup (onZeros 0x1000000000000000) 0x1000000000000000 [run.name] "s-merge-1-0").Fails
        ⟨true⟩ ⟨some (folderOf run), [run.name], {}⟩ .outOfMemory) ∧
    ∃ run : StoredRun 0x100000000, run.batches = [zeros, zeros] ∧ run.name ≠ "s-merge-1-0" ∧
      CanMerge (onZeros 0x100000000) (folderOf run) [run] ∧
      ∃ path, (mergeGroup (onZeros 0x100000000) 0x100000000 [run.name] "s-merge-1-0").Fails ⟨true⟩
        ⟨some (folderOf run), [run.name], {}⟩ (.error (.runFile path .batchTooLarge)) := by
  have hzero {rows : List Row} (h : rows = [[.int 0]]) : ∀ row ∈ rows, row = [.int 0] := by
    rw [h]
    exact List.forall_mem_singleton.mpr rfl
  have hname : Path.isName "s-merge-1-0" 0 = true := by decide
  have hlong : Path.isName longName 0 = false := by decide +kernel
  obtain ⟨few, hfew, -, hone, -⟩ :=
    exists_storedRun 1 [[.int 0]] nofun (by decide) (by decide) "s-run-1" ""
  obtain ⟨wide, hwide, -, hone', -⟩ :=
    exists_storedRun 0x1000000000000000 [[.int 0]] nofun (by decide) (by decide) "s-run-1" ""
  obtain ⟨many, hmany, hbatches⟩ := exists_zeros "s-run-1"
  refine ⟨⟨few, hone, ?_, canMerge_zeros (hzero hone), ?_⟩,
    ⟨wide, hone', ?_, canMerge_zeros (hzero hone'), ?_⟩, many, hbatches, ?_, ?_⟩
  · rw [hfew]
    intro heq
    rw [← heq] at hlong
    exact absurd hlong (by decide)
  · exact (canMerge_zeros (hzero hone)).ensures_mergeGroup rfl fun _ _ _ =>
      fails_writeMerged_of_name hlong
  · rw [hwide]
    decide
  · exact (canMerge_zeros (hzero hone')).ensures_mergeGroup rfl fun _ _ _ =>
      fails_writeMerged_of_memory hname (by decide)
  · rw [hmany]
    decide
  · have hrows : many.rows = List.replicate 0x100000000 [.int 0] := by
      rw [StoredRun.rows, hbatches, List.flatMap_cons, List.flatMap_cons, List.flatMap_nil,
        List.append_nil]
      exact List.replicate_append_replicate
    have hall : ∀ row ∈ many.rows, row = [.int 0] := fun row hrow =>
      List.eq_of_mem_replicate (hrows ▸ hrow)
    have hlength : (Row.sortBy [0] false ([many].flatMap StoredRun.rows)).length = 0x100000000 := by
      rw [(Row.sortBy_perm _ _ _).length_eq, List.flatMap_cons, List.flatMap_nil, List.append_nil,
        hrows, List.length_replicate]
    refine ⟨canMerge_zeros hall, (folderOf many).path "s-merge-1-0",
      (canMerge_zeros hall).ensures_mergeGroup rfl fun steps lanes hmerge => ?_⟩
    exact fails_writeMerged_of_count hname (by decide) hmerge (Nat.le_of_eq hlength)
      (Nat.le_of_eq hlength.symm)

end RunSet

end PagedQuery
