import PagedQuery.Proofs.GroupMerge
import PagedQuery.Proofs.MergeCounters

namespace PagedQuery

namespace Folder

variable {capacity : Nat} {folder before after : Folder} {file other : String}

theorem lookup_filter_ne (files : List (String × Bytes)) :
    (files.filter (·.1 != file)).lookup other =
      if other = file then none else files.lookup other := by
  induction files with
  | nil => simp
  | cons entry files ih =>
    obtain ⟨name, bytes⟩ := entry
    rw [List.filter_cons, lookup_cons_eq_ite other name]
    by_cases hname : name = file
    · subst hname
      rw [if_neg (by simp), ih]
      split
      · rfl
      · rfl
    · rw [if_pos (by simpa using hname), lookup_cons_eq_ite, ih]
      by_cases hother : other = name
      · rw [if_pos hother, if_pos hother, if_neg fun h => hname (hother.symm.trans h)]
      · rw [if_neg hother, if_neg hother]

theorem read?_remove (folder : Folder) (file other : String) :
    (folder.remove file).read? other = if other = file then none else folder.read? other :=
  lookup_filter_ne folder.files

theorem read?_removeAll (folder : Folder) (files : List String) (other : String) :
    (files.foldl remove folder).read? other =
      if other ∈ files then none else folder.read? other := by
  induction files generalizing folder with
  | nil => rfl
  | cons file files ih =>
    rw [List.foldl_cons, ih, read?_remove]
    simp only [List.mem_cons]
    grind

theorem name_put (folder : Folder) (file : String) (content : Bytes) :
    (folder.put file content).name = folder.name := by
  rw [put]
  split <;> rfl

theorem name_removeAll (folder : Folder) (files : List String) :
    (files.foldl remove folder).name = folder.name := by
  induction files generalizing folder with
  | nil => rfl
  | cons file files ih => exact ih (folder.remove file)

/-- The rows that are read of a run, up to its end or to the first error. -/
def readableRows (folder : Folder) (capacity : Nat) (file : String) : List Row :=
  match RunFile.Reader.ofFile folder file capacity with
  | .ok reader => reader.stream.rows
  | .error _ => []

/-- Whether a file is read to its end as a run with these rows. -/
def ReadsAs (folder : Folder) (capacity : Nat) (file : String) (rows : List Row) : Prop :=
  ∃ reader, RunFile.Reader.ofFile folder file capacity = .ok reader ∧ reader.stream = ⟨rows, none⟩

theorem ReadsAs.readableRows_eq {rows : List Row} (h : folder.ReadsAs capacity file rows) :
    folder.readableRows capacity file = rows := by
  obtain ⟨reader, hreader, hstream⟩ := h
  rw [readableRows, hreader]
  exact congrArg RunFile.Stream.rows hstream

theorem ReadsAs.isSome {rows : List Row} (h : folder.ReadsAs capacity file rows) :
    (folder.read? file).isSome := by
  obtain ⟨reader, hreader, -⟩ := h
  rw [RunFile.Reader.ofFile] at hreader
  cases hread : folder.read? file with
  | none => rw [hread] at hreader; cases hreader
  | some content => rfl

theorem flatMap_readableRows {files : List String} {readers : List RunFile.Reader}
    (h : files.mapM (RunFile.Reader.ofFile folder · capacity) = .ok readers) :
    files.flatMap (folder.readableRows capacity) =
      (readers.map (·.stream)).flatMap (·.rows) := by
  replace h := mapM_eq_ok_iff.mp h
  induction h with
  | nil => rfl
  | cons hreader _ ih =>
    rw [List.flatMap_cons, List.map_cons, List.flatMap_cons, ih, readableRows]
    simp only [hreader]

/-- How a file is read depends on its content, and on the name of the folder for its errors. -/
theorem ofFile_congr (hname : after.name = before.name)
    (hread : after.read? file = before.read? file) (capacity : Nat) :
    RunFile.Reader.ofFile after file capacity = RunFile.Reader.ofFile before file capacity := by
  rw [RunFile.Reader.ofFile, RunFile.Reader.ofFile, hread, path, path, hname]

theorem readableRows_congr (hname : after.name = before.name)
    (hread : after.read? file = before.read? file) (capacity : Nat) :
    after.readableRows capacity file = before.readableRows capacity file := by
  rw [readableRows, readableRows, ofFile_congr hname hread]

theorem readsAs_put {rows : List Row} {content : Bytes} (hcapacity : capacity = 0 → rows = [])
    (h : RunFile.encode (folder.path file) (Batch.pages capacity rows) = .ok content) :
    (folder.put file content).ReadsAs capacity file rows := by
  have hrun : RunFile.IsRun capacity (Batch.pages capacity rows) content ∧
      (Batch.pages capacity rows).flatMap (·.rows) = rows := by
    rcases Nat.eq_zero_or_pos capacity with rfl | hpos
    · obtain rfl := hcapacity rfl
      exact ⟨⟨[], .nil, (Except.ok.inj h).symm⟩, rfl⟩
    · exact ⟨RunFile.isRun_of_encode_pages hpos h, Batch.flatMap_rows_pages hpos rows⟩
  obtain ⟨reader, hopen, hhands⟩ := hrun.1.exists_handsOut ((folder.put file content).path file)
  refine ⟨reader, ?_, ?_⟩
  · rw [RunFile.Reader.ofFile, read?_put, if_pos rfl]
    exact hopen
  · rw [hhands.stream_eq, hrun.2]

/-- Whether all files but one are as they were. -/
structure ChangesOnly (before after : Folder) (file : String) : Prop where
  name_eq : after.name = before.name
  others : ∀ other, other ≠ file → after.read? other = before.read? other

theorem changesOnly_refl (folder : Folder) (file : String) : folder.ChangesOnly folder file :=
  ⟨rfl, fun _ _ => rfl⟩

theorem changesOnly_put (folder : Folder) (file : String) (content : Bytes) :
    folder.ChangesOnly (folder.put file content) file :=
  ⟨name_put folder file content, fun other hother => by rw [read?_put, if_neg hother]⟩

theorem changesOnly_remove (folder : Folder) (file : String) :
    folder.ChangesOnly (folder.remove file) file :=
  ⟨rfl, fun other hother => by rw [read?_remove, if_neg hother]⟩

end Folder

/-- What a merge does to the folder of its runs, depending on how it ends. -/
def RunSet.AfterMerge (capacity : Nat) (group : List String) (file : String) (folder : Folder)
    (answer : Except Failure Unit) (s : RunSet) : Prop :=
  ∃ after, s.folder = some after ∧ folder.ChangesOnly after file ∧
    match answer with
    | .ok () => ∃ rows, after.ReadsAs capacity file rows ∧
      rows.Perm (group.flatMap (folder.readableRows capacity))
    | .error _ => after.read? file = none ∨ after.read? file = folder.read? file

namespace RunSet

variable {spec : SortSpec} {capacity : Nat} {root : TempRoot} {s : RunSet} {folder : Folder}
  {group : List String} {file : String}

theorem afterMerge_error (hfolder : s.folder = some folder) (e : Failure) :
    s.AfterMerge capacity group file folder (.error e) :=
  ⟨folder, hfolder, folder.changesOnly_refl file, .inr rfl⟩

/-- A merge changes no file but its own. If it answers, that file holds all rows of its runs, each of
which was read to its end; if it fails, nothing is left of that file. -/
theorem ensures_mergeGroup (root : TempRoot) (hfolder : s.folder = some folder) :
    (mergeGroup spec capacity group file).Ensures root s fun answer t =>
      t.AfterMerge capacity group file folder answer := by
  have hcounted : (s.counting group.length).folder = some folder := hfolder
  have herror (e : Failure) :
      (s.counting group.length).AfterMerge capacity group file folder (.error e) :=
    afterMerge_error hcounted e
  unfold mergeGroup
  split
  · exact Act.ensures_fail_bind.mpr (afterMerge_error hfolder _)
  refine Act.ensures_require_bind (fun fanIn _ => ?_) fun _ => afterMerge_error hfolder _
  split
  · exact Act.ensures_fail_bind.mpr (afterMerge_error hfolder _)
  refine (Act.gives_modify _).bind_ensures ((gives_workingFolder hcounted).bind_ensures ?_)
  refine Act.ensures_ofExcept_bind (fun readers hreaders => ?_) fun e _ => herror (.error e)
  refine Act.ensures_ofAnswer_bind (fun lanes hlanes => ?_) fun e _ => herror e
  refine ensures_onFolder hcounted (ensures_writeMerged (fun rows content hmerge hcapacity hencode =>
    ?_) fun e _ => ?_)
  · rw [(merge_ofReaders _ hlanes).2] at hmerge
    refine ⟨folder.put file content, rfl, folder.changesOnly_put file content, rows,
      Folder.readsAs_put hcapacity hencode, ?_⟩
    rw [Folder.flatMap_readableRows hreaders]
    exact perm_of_mergeStreams hmerge
  · refine ⟨folder.remove file, rfl, folder.changesOnly_remove file, .inl ?_⟩
    rw [Folder.read?_remove, if_pos rfl]

end RunSet

end PagedQuery
