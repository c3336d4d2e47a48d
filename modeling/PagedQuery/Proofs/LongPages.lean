import PagedQuery.Proofs.SortOpening

namespace PagedQuery

namespace RunSet

variable {spec : SortSpec} {capacity : Nat} {root : TempRoot} {s : RunSet}

theorem exists_gives_takeRows_of_room (spec : SortSpec) (root : TempRoot) (s : RunSet)
    (block : Block) {page : Draft} {rest rows : List Row} (hpage : page.batch = ⟨capacity, rest⟩)
    (hroom : rest.length + rows.length < capacity) :
    ∃ page' : Draft, page'.batch = ⟨capacity, rest ++ rows⟩ ∧
      (rows.foldlM (takeRow spec capacity) (block, page)).Gives root s (block, page') s := by
  induction rows generalizing page rest with
  | nil =>
    rw [List.append_nil]
    exact ⟨page, hpage, Act.gives_pure⟩
  | cons row rows ih =>
    rw [List.length_cons] at hroom
    obtain ⟨page₁, hfill, hpage₁⟩ := fill_of_room _ hpage (by omega) row
    have hroom₁ : (rest ++ [row]).length + rows.length < capacity := by
      rw [List.length_append, List.length_singleton]
      omega
    obtain ⟨page₂, hpage₂, hgives⟩ := ih hpage₁ hroom₁
    refine ⟨page₂, by simpa using hpage₂, ?_⟩
    rw [List.foldlM_cons]
    have htake : (takeRow spec capacity (block, page) row).Gives root s (block, page₁) s :=
      (Act.gives_ofExcept hfill).bind Act.gives_pure
    exact htake.bind hgives

theorem fails_write {folder : Folder} (hfolder : s.folder = some folder) {file : String}
    {batches : List Batch} {e : Error} (hname : Path.isName file 0 = true)
    (hencode : RunFile.encode (folder.path file) batches = .error e) :
    (write file batches).Fails root s (.error e) := by
  refine ensures_write hfolder (fun content _ hcontent => ?_) (fun e' _ he' => ?_) fun hillegal => ?_
  · cases hcontent.symm.trans hencode
  · rw [Except.error.inj (he'.symm.trans hencode)]
  · cases hillegal.symm.trans hname

theorem exists_fails_writeSorted (root : TempRoot) {all : List Row} {fault : String → Error}
    (hkey : ∀ row ∈ all, Row.HasKey spec.key row) (h : spec.HasRoom capacity) {folder : Folder}
    (hfolder : s.folder = some folder) (hruns : s.runs = []) (hrows : all ≠ [])
    (hroom : all.length ≤ capacity) (hname : Path.isName (spec.runName 1) 0 = true)
    (hencode : ∀ path, RunFile.encode path
      [⟨capacity, Row.sortBy spec.key spec.descending all⟩] = .error (fault path)) :
    ∃ path, (writeSorted spec capacity ⟨spec.numBuffers, capacity, [⟨capacity, all⟩]⟩).Fails root s
      (.error (fault path)) := by
  have hlength := (Row.sortBy_perm spec.key spec.descending all).length_eq
  have hpos := List.length_pos_iff.mpr hrows
  have hfit : (Row.sortBy spec.key spec.descending all).length ≤ spec.numBuffers * capacity := by
    have hmul := Nat.mul_le_mul_right capacity h.buffers
    omega
  have hpacked := Block.ofSorted_eq h.capacity_pos h.block h.page hfit
  have hone : Batch.pages capacity (Row.sortBy spec.key spec.descending all) =
      [⟨capacity, Row.sortBy spec.key spec.descending all⟩] := by
    rw [Batch.pages, chunks_of_length_le h.capacity_pos (List.length_pos_iff.mp (by omega))
      (by omega)]
    rfl
  rw [hone] at hpacked
  have hall : (⟨spec.numBuffers, capacity, [⟨capacity, all⟩]⟩ : Block).rows = all :=
    List.append_nil all
  refine ⟨folder.path (spec.runName 1), (Act.gives_modify _).bind_fails ?_⟩
  rw [hall]
  refine (Act.gives_require (Row.sortOn?_of_hasKey hkey)).bind_fails ?_
  refine (Act.gives_ofAnswer hpacked).bind_fails (Act.ensures_get_bind.mpr ?_)
  have hwrite {s : RunSet} (hfolder : s.folder = some folder) :
      (write (spec.runName 1) [⟨capacity, Row.sortBy spec.key spec.descending all⟩]).Fails root s
        (.error (fault (folder.path (spec.runName 1)))) :=
    fails_write hfolder hname (hencode _)
  rw [hruns]
  exact Act.Fails.bind (hwrite hfolder)

/-- Rows that stand on one page and cannot be written cannot be sorted. -/
theorem exists_fails_sortRows (root : TempRoot) (folder : Folder) {all : List Row}
    {fault : String → Error} (hkey : ∀ row ∈ all, Row.HasKey spec.key row)
    (h : spec.HasRoom capacity) (hrows : all ≠ []) (hroom : all.length < capacity)
    (hname : Path.isName (spec.runName 1) 0 = true)
    (hencode : ∀ path, RunFile.encode path
      [⟨capacity, Row.sortBy spec.key spec.descending all⟩] = .error (fault path)) :
    ∃ path, (sortRows spec capacity all).Fails root (fresh folder) (.error (fault path)) := by
  have hopen : Draft.batch (.empty capacity) = ⟨capacity, []⟩ := Draft.batch_empty capacity
  have hfits : ([] : List Row).length + all.length < capacity := by
    rwa [List.length_nil, Nat.zero_add]
  obtain ⟨page, hpage, htake⟩ := exists_gives_takeRows_of_room spec root (fresh folder)
    (.empty spec.numBuffers capacity) hopen hfits
  obtain ⟨path, hwrite⟩ := exists_fails_writeSorted root (s := fresh folder) hkey h rfl rfl hrows
    (Nat.le_of_lt hroom) hname hencode
  have hclose : (closePage (.empty spec.numBuffers capacity) page).Gives root (fresh folder)
      ⟨spec.numBuffers, capacity, [⟨capacity, all⟩]⟩ (fresh folder) :=
    gives_closePage hpage hrows (Nat.lt_of_lt_of_le (Nat.zero_lt_succ 2) h.buffers)
  have hlast : (takeEnd spec capacity (.empty spec.numBuffers capacity, page)).Fails root
      (fresh folder) (.error (fault path)) :=
    hclose.bind_fails (Act.Fails.bind hwrite)
  have hblock : Block.reserve spec.numBuffers capacity = .ok (.empty spec.numBuffers capacity) :=
    if_pos h.block
  refine ⟨path, Act.Fails.bind ((Act.gives_ofAnswer hblock).bind_fails ?_)⟩
  exact (Act.gives_ofAnswer (Draft.reserve_of_fitsMemory h.page)).bind_fails
    (htake.bind_fails hlast)

end RunSet

namespace MergeSort

variable {σ : Type} {spec : SortSpec} {child : Cursor σ} {root : TempRoot} {capacity : Nat}
  {s : State σ} {c d : σ} {all : List Row}

/-- A sort fails if all rows of its child stand on one page and cannot be written. -/
theorem exists_fails_openUp_of_encode (spec : SortSpec) (child : Cursor σ) (root : TempRoot)
    (fault : String → Error) (hordered : Row.AreOrderedOn spec.key all)
    (hbuffers : 3 ≤ spec.numBuffers) (hblock : fitsMemory spec.numBuffers Block.pageRoom = true)
    (hpage : fitsMemory (spec.pageSize / child.schema.rowSize) Batch.rowRoom = true)
    (hne : all ≠ []) (hroom : all.length < spec.pageSize / child.schema.rowSize)
    (hencode : ∀ path, RunFile.encode path
      [⟨spec.pageSize / child.schema.rowSize, Row.sortBy spec.key spec.descending all⟩] =
        .error (fault path))
    (hkey : ∀ position ∈ spec.key, position < child.schema.length)
    (hname : Path.isName (spec.runName 1) 0 = true)
    (hfolder : (root.makeFolder? (spec.label ++ "-sort-")).isSome = true)
    (hclosed : s.isOpen = false) (hruns : s.work.runs = []) {c₀ : σ} {n : Nat}
    (hopen : child.openUp.Gives root s.child () c₀)
    (hnext : child.next.Gives root c₀ (some ⟨n, all⟩) c) (hend : child.next.Gives root c none d) :
    ∃ path, (openUp spec child).Fails root s (.error (fault path)) := by
  obtain ⟨folder, hfolder⟩ := Option.isSome_iff_exists.mp hfolder
  let started : State σ := { s with
    child := c₀
    capacity := spec.pageSize / child.schema.rowSize }
  have hstarted : started.work.runs = [] := hruns
  have hdelivers : child.Delivers root started.child [⟨n, all⟩] d :=
    ⟨c, none, .cons hnext hne (.nil c), hend, rfl⟩
  have hsized : spec.HasRoom (spec.pageSize / child.schema.rowSize) :=
    ⟨hbuffers, by omega, hblock, hpage⟩
  obtain ⟨path, hsort⟩ := RunSet.exists_fails_sortRows root folder hordered.hasKey hsized hne
    hroom hname hencode
  have hrows : [⟨n, all⟩].flatMap Batch.rows = all := by
    rw [List.flatMap_cons, List.flatMap_nil, List.append_nil]
  rw [← hrows] at hsort
  have hfails := failsIn_sortOrRelease (failsIn_sortInput hfolder hstarted hdelivers hsort)
  exact ⟨path, ensures_openUp hbuffers (by omega) hkey hclosed hopen hfails.fails⟩

/-- A sort fails if all rows of its child stand on one page and are too many for it. -/
theorem exists_fails_openUp (spec : SortSpec) (child : Cursor σ) (root : TempRoot)
    (hordered : Row.AreOrderedOn spec.key all)
    (hbuffers : 3 ≤ spec.numBuffers) (hblock : fitsMemory spec.numBuffers Block.pageRoom = true)
    (hpage : fitsMemory (spec.pageSize / child.schema.rowSize) Batch.rowRoom = true)
    (hlong : 0x100000000 ≤ all.length) (hroom : all.length < spec.pageSize / child.schema.rowSize)
    (hkey : ∀ position ∈ spec.key, position < child.schema.length)
    (hname : Path.isName (spec.runName 1) 0 = true)
    (hfolder : (root.makeFolder? (spec.label ++ "-sort-")).isSome = true)
    (hclosed : s.isOpen = false) (hruns : s.work.runs = []) {c₀ : σ} {n : Nat}
    (hopen : child.openUp.Gives root s.child () c₀)
    (hnext : child.next.Gives root c₀ (some ⟨n, all⟩) c) (hend : child.next.Gives root c none d) :
    ∃ path, (openUp spec child).Fails root s (.error (.runFile path .batchTooLarge)) := by
  have hne : all ≠ [] := List.length_pos_iff.mp (by omega)
  refine exists_fails_openUp_of_encode spec child root (.runFile · .batchTooLarge) hordered hbuffers
    hblock hpage hne hroom (fun path => ?_) hkey hname hfolder hclosed hruns hopen hnext hend
  apply RunFile.encode_long_page
  change 0x100000000 ≤ (Row.sortBy spec.key spec.descending all).length
  rwa [(Row.sortBy_perm spec.key spec.descending all).length_eq]

end MergeSort

end PagedQuery
