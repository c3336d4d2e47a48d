import PagedQuery.Proofs.ActAnswers
import PagedQuery.Proofs.KeyOrder
import PagedQuery.Proofs.RunNames
import PagedQuery.Proofs.StoredRuns
import PagedQuery.Proofs.WrittenRuns

/-!
# Run generation

The rows that run generation has taken are those of the runs written so far, of the block and of the
open page. Every run but the last holds as many rows as a block has room for, so the runs are the
chunks of the input of that length, each sorted. `SortFault` lists why a sort can fail on the way.
-/

namespace PagedQuery

/-- Whether there is room in memory for the pages of a block and for the rows of a page, and no page
gets more rows than a run can count. -/
structure SortSpec.FitsMemory (spec : SortSpec) (capacity rows : Nat) : Prop where
  block : fitsMemory spec.numBuffers Block.pageRoom = true
  page : fitsMemory capacity Batch.rowRoom = true
  count : min capacity rows < 0x100000000

/-- Whether the names of all files that a sort of so many rows can make are short enough. -/
structure SortSpec.HasFileNames (spec : SortSpec) (rows : Nat) : Prop where
  run : ∀ n ≤ rows, Path.isName (spec.runName n) 0 = true
  merged : ∀ p ≤ rows, ∀ g ≤ rows, Path.isName (spec.mergeName p g) 0 = true

/-- What a sort of some rows needs besides an order. -/
structure CanSort (spec : SortSpec) (capacity : Nat) (rows : List Row) : Prop where
  buffers : 3 ≤ spec.numBuffers
  capacity_pos : 0 < capacity
  memory : spec.FitsMemory capacity rows.length
  names : spec.HasFileNames rows.length
  storable : ∀ row ∈ rows, row.IsStorable

/-- The names of the files that a sort of so many rows can make. -/
def SortSpec.Names (spec : SortSpec) (rows : Nat) (file : String) : Prop :=
  (∃ n ≤ rows, file = spec.runName n) ∨ ∃ p ≤ rows, ∃ g ≤ rows, file = spec.mergeName p g

/-- Whether there are buffers enough to merge, and memory for the pages of a block and for the rows
of a page. -/
structure SortSpec.HasRoom (spec : SortSpec) (capacity : Nat) : Prop where
  buffers : 3 ≤ spec.numBuffers
  capacity_pos : 0 < capacity
  block : fitsMemory spec.numBuffers Block.pageRoom = true
  page : fitsMemory capacity Batch.rowRoom = true

/-- Why a sort of some rows can fail: a file cannot be made, rows cannot be written, or a row is too
short for the key. -/
inductive SortFault (spec : SortSpec) (capacity : Nat) (all : List Row) : Failure → Prop
  | name {file : String} (hfile : spec.Names all.length file)
      (hillegal : Path.isName file 0 = false) : SortFault spec capacity all (.error .io)
  | encoding {path : String} {rows : List Row} {e : Error} (hrows : rows ⊆ all)
      (hlength : rows.length ≤ all.length)
      (hencode : RunFile.encode path (Batch.pages capacity rows) = .error e) :
      SortFault spec capacity all (.error e)
  | shortRow {row : Row} (hrow : row ∈ all) (hshort : ¬Row.HasKey spec.key row) :
      SortFault spec capacity all .outOfRange

namespace CanSort

variable {spec : SortSpec} {capacity : Nat} {all : List Row}

theorem hasRoom (h : CanSort spec capacity all) : spec.HasRoom capacity :=
  ⟨h.buffers, h.capacity_pos, h.memory.block, h.memory.page⟩

theorem not_sortFault (h : CanSort spec capacity all) (hkey : ∀ row ∈ all, Row.HasKey spec.key row)
    (e : Failure) : ¬SortFault spec capacity all e := by
  intro hfault
  cases hfault with
  | name hfile hillegal =>
    have hlegal : ∀ file, spec.Names all.length file → Path.isName file 0 = true := by
      rintro file (⟨n, hn, rfl⟩ | ⟨p, hp, g, hg, rfl⟩)
      · exact h.names.run n hn
      · exact h.names.merged p hp g hg
    rw [hlegal _ hfile] at hillegal
    cases hillegal
  | encoding hrows hlength hencode =>
    have hcount := h.memory.count
    obtain ⟨content, hcontent⟩ := RunFile.exists_encode_pages h.capacity_pos (by omega)
      (fun row hrow => h.storable row (hrows hrow)) _
    cases hcontent.symm.trans hencode
  | shortRow hrow hshort => exact hshort (hkey _ hrow)

end CanSort

namespace RunSet

variable {spec : SortSpec} {capacity : Nat} {all : List Row} {root : TempRoot} {s : RunSet}

/-- Whether the runs of a set are these, and its folder holds no other files. -/
structure Lists (s : RunSet) (runs : List (StoredRun capacity)) : Prop where
  folder : ∃ folder, s.folder = some folder ∧ folder.Holds runs
  runs_eq : s.runs = runs.map StoredRun.name

theorem gives_workingFolder {folder : Folder} (h : s.folder = some folder) :
    workingFolder.Gives root s folder s := by
  refine Act.gives_get_bind.mpr ?_
  rw [h]
  exact Act.gives_pure

theorem gives_release : release.Gives root s () { s with folder := none, runs := [] } :=
  Act.gives_get_bind.mpr ((Act.gives_modify _).bind (Act.gives_modify _))

theorem attains_write (root : TempRoot) (hc : 0 < capacity) {folder : Folder}
    {runs : List (StoredRun capacity)} (hfolder : s.folder = some folder)
    (hholds : folder.Holds runs) {file : String} (hname : spec.Names all.length file)
    (hnew : file ∉ runs.map StoredRun.name) {rows : List Row} (hrows : rows ⊆ all)
    (hlength : rows.length ≤ all.length) :
    (write file (Batch.pages capacity rows)).Attains root s
      (fun _ t => ∃ (run : StoredRun capacity) (folder' : Folder), run.name = file ∧
        run.batches = Batch.pages capacity rows ∧ folder'.Holds (run :: runs) ∧
        t = { s with folder := some folder' }) (SortFault spec capacity all) := by
  refine ensures_write hfolder (fun content _ hencode => ?_)
    (fun e _ hencode => .encoding hrows hlength hencode) fun hlegal => .name hname hlegal
  let run : StoredRun capacity := ⟨file, Batch.pages capacity rows, content,
    RunFile.isRun_of_encode_pages hc hencode⟩
  exact ⟨run, folder.put file content, rfl, rfl, hholds.put run hnew, rfl⟩

theorem gives_closePage {block : Block} {page : Draft} {rest : List Row}
    (hpage : page.batch = ⟨capacity, rest⟩) (hrest : rest ≠ [])
    (hroom : block.batches.length < block.maxPages) :
    (closePage block page).Gives root s
      { block with batches := block.batches ++ [⟨capacity, rest⟩] } s := by
  rw [closePage, isEmpty_of_batch hpage, if_neg (by simpa using hrest), Block.add?_of_room hroom,
    hpage]
  exact Act.gives_pure

def sortedPages (spec : SortSpec) (capacity : Nat) (piece : List Row) : List Batch :=
  Batch.pages capacity (Row.sortBy spec.key spec.descending piece)

def statsOf (capacity : Nat) (pieces : List (List Row)) : SortStats where
  initialRuns := pieces.length
  maxBlockPages := (pieces.map fun piece => (chunks capacity piece).length).foldl max 0

/-- Whether these pieces of the input were written, each as a sorted run. -/
structure HasWritten (spec : SortSpec) (s : RunSet) (runs : List (StoredRun capacity))
    (pieces : List (List Row)) : Prop where
  lists : s.Lists runs
  batches : runs.map StoredRun.batches = pieces.map (sortedPages spec capacity)
  names : runs.map StoredRun.name = (List.range' 1 pieces.length).map spec.runName
  stats : s.stats = statsOf capacity pieces

variable {runs : List (StoredRun capacity)} {pieces : List (List Row)}

theorem HasWritten.runName_not_mem (hs : s.HasWritten spec runs pieces) :
    spec.runName (pieces.length + 1) ∉ runs.map StoredRun.name := by
  rw [hs.names]
  intro hmem
  obtain ⟨n, hn, hname⟩ := List.mem_map.mp hmem
  have hle := List.mem_range'_1.mp hn
  have heq := SortSpec.runName_inj hname
  omega

/-- There are no more full blocks in front of a row than rows. -/
theorem length_pieces_lt {n : Nat} {piece : List Row} (hpieces : ∀ part ∈ pieces, part.length = n)
    (hne : piece ≠ []) (hfit : piece.length ≤ n) (hinput : pieces.flatten ++ piece <+: all) :
    pieces.length < all.length := by
  have hlength := hinput.length_le
  have hpos := List.length_pos_iff.mpr hne
  have hmul := Nat.le_mul_of_pos_right pieces.length (Nat.lt_of_lt_of_le hpos hfit)
  rw [List.length_append, length_flatten_of_forall hpieces] at hlength
  omega

theorem HasWritten.concat {run : StoredRun capacity} {folder : Folder} {piece : List Row}
    (hs : s.HasWritten spec runs pieces) (hname : run.name = spec.runName (pieces.length + 1))
    (hbatches : run.batches = sortedPages spec capacity piece) (hholds : folder.Holds (run :: runs)) :
    HasWritten spec
      { folder := some folder
        runs := s.runs ++ [run.name]
        stats := { s.stats with
          initialRuns := s.stats.initialRuns + 1
          maxBlockPages := max s.stats.maxBlockPages (Batch.pages capacity piece).length } }
      (runs ++ [run]) (pieces ++ [piece]) where
  lists := by
    refine ⟨⟨folder, rfl, hholds.perm (List.perm_append_singleton run runs).symm⟩, ?_⟩
    rw [List.map_append, hs.lists.runs_eq, List.map_singleton]
  batches := by
    rw [List.map_append, List.map_append, hs.batches, List.map_singleton, hbatches]
    rfl
  names := by
    rw [List.map_append, hs.names, List.map_singleton, hname, List.length_append,
      List.length_singleton, List.range'_concat, List.map_append, List.map_singleton, Nat.one_mul,
      Nat.add_comm 1]
  stats := by
    simp [hs.stats, statsOf, Batch.pages]

theorem HasWritten.length_eq (hs : s.HasWritten spec runs pieces) :
    s.runs.length = pieces.length := by
  have hlength := congrArg List.length hs.batches
  rwa [List.length_map, List.length_map, ← List.length_map StoredRun.name, ← hs.lists.runs_eq]
    at hlength

/-- A block of rows becomes the next run, sorted and on full pages. -/
theorem HasWritten.attains_writeSorted (root : TempRoot) (h : spec.HasRoom capacity)
    (hs : s.HasWritten spec runs pieces)
    (hpieces : ∀ piece ∈ pieces, piece.length = spec.numBuffers * capacity) {piece : List Row}
    (hne : piece ≠ []) (hfit : piece.length ≤ spec.numBuffers * capacity)
    (hinput : pieces.flatten ++ piece <+: all) :
    (writeSorted spec capacity ⟨spec.numBuffers, capacity, Batch.pages capacity piece⟩).Attains
      root s (fun _ s' => ∃ run, s'.HasWritten spec (runs ++ [run]) (pieces ++ [piece]))
      (SortFault spec capacity all) := by
  have hpart : piece <:+: all :=
    (List.suffix_append pieces.flatten piece).isInfix.trans hinput.isInfix
  have hrows : (⟨spec.numBuffers, capacity, Batch.pages capacity piece⟩ : Block).rows = piece :=
    Batch.flatMap_rows_pages h.capacity_pos piece
  have hperm := Row.sortBy_perm spec.key spec.descending piece
  refine (Act.gives_modify _).bind_attains ?_
  rw [hrows]
  cases hsorted : Row.sortOn? spec.key spec.descending piece with
  | none =>
    have hshort : ∃ row ∈ piece, ¬Row.HasKey spec.key row := by
      by_contra hkey
      push Not at hkey
      rw [Row.sortOn?_of_hasKey hkey] at hsorted
      cases hsorted
    obtain ⟨row, hrow, hshort⟩ := hshort
    exact Act.ensures_abandon_bind.mpr (.shortRow (hpart.subset hrow) hshort)
  | some sorted =>
    obtain rfl := Row.eq_sortBy_of_sortOn? hsorted
    have hpacked := Block.ofSorted_eq h.capacity_pos h.block h.page
      (Nat.le_trans (Nat.le_of_eq hperm.length_eq) hfit)
    obtain ⟨folder, hfolder, hholds⟩ := hs.lists.folder
    let counted : RunSet := { s with
      stats := { s.stats with
        maxBlockPages := max s.stats.maxBlockPages (Batch.pages capacity piece).length } }
    have hcounted : counted.folder = some folder := hfolder
    refine (Act.gives_require rfl).bind_attains ((Act.gives_ofAnswer hpacked).bind_attains
      (Act.ensures_get_bind.mpr ?_))
    dsimp only
    rw [hs.length_eq]
    refine (attains_write root h.capacity_pos hcounted hholds
      (.inl ⟨pieces.length + 1, length_pieces_lt hpieces hne hfit hinput, rfl⟩) hs.runName_not_mem
      (fun row hrow => hpart.subset (hperm.mem_iff.mp hrow))
      (Nat.le_trans (Nat.le_of_eq hperm.length_eq) hpart.length_le)).bind ?_
    rintro _ t ⟨run, folder', hname, hbatches, hholds', rfl⟩
    rw [← hname]
    exact ((Act.gives_modify _).bind (Act.gives_modify _)).attains
      ⟨run, hs.concat hname hbatches hholds'⟩

end RunSet

/-- What run generation has taken: the pieces written as runs, the full pages of its block and the
rows of its open page. -/
structure Intake (maxPages capacity : Nat) where
  pieces : List (List Row)
  full : List (List Row)
  rest : List Row
  length_piece : ∀ piece ∈ pieces, piece.length = maxPages * capacity
  length_full : ∀ page ∈ full, page.length = capacity
  full_lt : full.length < maxPages
  rest_lt : rest.length < capacity

namespace Intake

variable {spec : SortSpec} {capacity : Nat} {all : List Row} {root : TempRoot} {s : RunSet}
  {blockAndPage : Block × Draft}

def rows {maxPages : Nat} (i : Intake maxPages capacity) : List Row :=
  i.pieces.flatten ++ (i.full.flatten ++ i.rest)

/-- Whether run generation stands where these rows are taken. -/
structure IsAt (i : Intake spec.numBuffers capacity) (s : RunSet) (blockAndPage : Block × Draft) :
    Prop where
  written : ∃ runs : List (StoredRun capacity), s.HasWritten spec runs i.pieces
  block : blockAndPage.1 = ⟨spec.numBuffers, capacity, i.full.map (⟨capacity, ·⟩)⟩
  page : blockAndPage.2.batch = ⟨capacity, i.rest⟩

/-- Whether run generation stands where these rows are taken, however it has grouped them. -/
def HasTaken (spec : SortSpec) (capacity : Nat) (rows : List Row) (blockAndPage : Block × Draft)
    (s : RunSet) : Prop :=
  ∃ i : Intake spec.numBuffers capacity, i.rows = rows ∧ i.IsAt s blockAndPage

theorem length_full_concat (i : Intake spec.numBuffers capacity) (row : Row)
    (hlast : i.rest.length + 1 = capacity) :
    ∀ page ∈ i.full ++ [i.rest ++ [row]], page.length = capacity := by
  refine List.forall_mem_append.mpr ⟨i.length_full, fun page hpage => ?_⟩
  rw [List.mem_singleton.mp hpage, List.length_append]
  exact hlast

theorem add?_full (i : Intake spec.numBuffers capacity) (page : List Row) :
    Block.add? ⟨spec.numBuffers, capacity, i.full.map (⟨capacity, ·⟩)⟩ ⟨capacity, page⟩ =
      some ⟨spec.numBuffers, capacity, (i.full ++ [page]).map (⟨capacity, ·⟩)⟩ := by
  have hlt : (i.full.map (Batch.mk capacity)).length < spec.numBuffers := by
    rw [List.length_map]
    exact i.full_lt
  rw [Block.add?_of_room hlt, List.map_append]
  rfl

theorem IsAt.attains_takeRow_of_room {i : Intake spec.numBuffers capacity}
    (hat : i.IsAt s blockAndPage) {row : Row} (hroom : i.rest.length + 1 < capacity) :
    (RunSet.takeRow spec capacity blockAndPage row).Attains root s
      (HasTaken spec capacity (i.rows ++ [row])) (SortFault spec capacity all) := by
  obtain ⟨page, hfill, hpage⟩ := fill_of_room _ hat.page hroom row
  have hlt : (i.rest ++ [row]).length < capacity := by
    rwa [List.length_append]
  refine (Act.gives_ofExcept hfill).bind_attains (Act.attains_pure.mpr ?_)
  refine ⟨{ i with rest := i.rest ++ [row], rest_lt := hlt }, ?_, hat.written, hat.block, hpage⟩
  simp [rows]

theorem IsAt.attains_takeRow_of_page (hc : 0 < capacity) {i : Intake spec.numBuffers capacity}
    (hat : i.IsAt s blockAndPage) {row : Row} (hlast : i.rest.length + 1 = capacity)
    (hmore : i.full.length + 1 < spec.numBuffers) :
    (RunSet.takeRow spec capacity blockAndPage row).Attains root s
      (HasTaken spec capacity (i.rows ++ [row])) (SortFault spec capacity all) := by
  have hlt : (i.full ++ [i.rest ++ [row]]).length < spec.numBuffers := by
    rwa [List.length_append]
  refine (Act.gives_ofExcept (fill_of_last hat.page hlast row)).bind_attains ?_
  simp only [hat.block, i.add?_full]
  rw [if_neg (by simpa [Block.isFull] using hlt)]
  refine Act.gives_pure.attains ⟨⟨i.pieces, i.full ++ [i.rest ++ [row]], [], i.length_piece,
    i.length_full_concat row hlast, hlt, hc⟩, ?_, hat.written, rfl, rfl⟩
  simp [rows]

theorem IsAt.attains_takeRow_of_block (h : spec.HasRoom capacity)
    {i : Intake spec.numBuffers capacity} (hat : i.IsAt s blockAndPage) {row : Row}
    (hall : i.rows ++ [row] <+: all) (hlast : i.rest.length + 1 = capacity)
    (hblock : i.full.length + 1 = spec.numBuffers) :
    (RunSet.takeRow spec capacity blockAndPage row).Attains root s
      (HasTaken spec capacity (i.rows ++ [row])) (SortFault spec capacity all) := by
  let piece := (i.full ++ [i.rest ++ [row]]).flatten
  have hfull := i.length_full_concat row hlast
  have hcount : (i.full ++ [i.rest ++ [row]]).length = spec.numBuffers := by
    rwa [List.length_append]
  have hpiece : piece.length = spec.numBuffers * capacity := by
    rw [length_flatten_of_forall hfull, hcount]
  have hpieces : ∀ part ∈ i.pieces ++ [piece], part.length = spec.numBuffers * capacity :=
    List.forall_mem_append.mpr ⟨i.length_piece, fun part hpart => List.mem_singleton.mp hpart ▸ hpiece⟩
  have hrows : i.pieces.flatten ++ piece = i.rows ++ [row] := by simp [rows, piece]
  obtain ⟨runs, hwritten⟩ := hat.written
  have hne : piece ≠ [] := by simp [piece]
  have hwrite := hwritten.attains_writeSorted root h i.length_piece hne (Nat.le_of_eq hpiece)
    (hrows ▸ hall)
  refine (Act.gives_ofExcept (fill_of_last hat.page hlast row)).bind_attains ?_
  simp only [hat.block, i.add?_full]
  rw [if_pos (by simp [Block.isFull, ← hcount]), ← Batch.pages_flatten h.capacity_pos hfull]
  refine hwrite.bind ?_
  rintro _ t ⟨run, hwritten'⟩
  refine Act.attains_pure.mpr ⟨⟨i.pieces ++ [piece], [], [], hpieces, by simp, Nat.zero_lt_of_lt i.full_lt,
    h.capacity_pos⟩, ?_, ⟨_, hwritten'⟩, rfl, rfl⟩
  simp [rows, piece]

theorem IsAt.attains_takeRow (h : spec.HasRoom capacity) {i : Intake spec.numBuffers capacity}
    (hat : i.IsAt s blockAndPage) {row : Row} (hall : i.rows ++ [row] <+: all) :
    (RunSet.takeRow spec capacity blockAndPage row).Attains root s
      (HasTaken spec capacity (i.rows ++ [row])) (SortFault spec capacity all) := by
  rcases Nat.lt_or_eq_of_le (Nat.succ_le_of_lt i.rest_lt) with hroom | hlast
  · exact hat.attains_takeRow_of_room hroom
  · rcases Nat.lt_or_eq_of_le (Nat.succ_le_of_lt i.full_lt) with hmore | hblock
    · exact hat.attains_takeRow_of_page h.capacity_pos hlast hmore
    · exact hat.attains_takeRow_of_block h hall hlast hblock

theorem HasTaken.attains_takeRows (root : TempRoot) (h : spec.HasRoom capacity)
    {taken rows : List Row} (hs : HasTaken spec capacity taken blockAndPage s)
    (hall : taken ++ rows <+: all) :
    (rows.foldlM (RunSet.takeRow spec capacity) blockAndPage).Attains root s
      (HasTaken spec capacity (taken ++ rows)) (SortFault spec capacity all) := by
  induction rows generalizing taken s blockAndPage with
  | nil => exact Act.gives_pure.attains ((List.append_nil taken).symm ▸ hs)
  | cons row rows ih =>
    rw [List.append_cons] at hall ⊢
    obtain ⟨i, rfl, hat⟩ := hs
    rw [List.foldlM_cons]
    exact (hat.attains_takeRow h ((List.prefix_append _ rows).trans hall)).bind
      fun _ _ hs' => ih hs' hall

/-- The pieces and what is left are the whole input, cut into blocks. -/
theorem chunks_rows (hc : 0 < capacity) (i : Intake spec.numBuffers capacity) :
    chunks (spec.numBuffers * capacity) i.rows =
      i.pieces ++ chunks (spec.numBuffers * capacity) (i.full.flatten ++ i.rest) := by
  have hpos := Nat.mul_pos (Nat.zero_lt_of_lt i.full_lt) hc
  exact chunks_append hpos i.length_piece _

theorem length_left_le (i : Intake spec.numBuffers capacity) :
    (i.full.flatten ++ i.rest).length ≤ spec.numBuffers * capacity := by
  have hmul := Nat.mul_le_mul_right capacity (Nat.succ_le_of_lt i.full_lt)
  have hrest := i.rest_lt
  rw [Nat.succ_mul] at hmul
  rw [List.length_append, length_flatten_of_forall i.length_full]
  omega

theorem IsAt.gives_closePage (hc : 0 < capacity) {i : Intake spec.numBuffers capacity}
    (hat : i.IsAt s blockAndPage) :
    (RunSet.closePage blockAndPage.1 blockAndPage.2).Gives root s
      ⟨spec.numBuffers, capacity, Batch.pages capacity (i.full.flatten ++ i.rest)⟩ s := by
  have hrest := Nat.le_of_lt i.rest_lt
  rw [Batch.pages_append hc i.length_full, hat.block]
  cases hleft : i.rest with
  | nil =>
    have hpage := hat.page
    rw [hleft] at hpage
    rw [RunSet.closePage, isEmpty_of_batch hpage, if_pos List.isEmpty_nil, Batch.pages, chunks_nil,
      List.map_nil, List.append_nil]
    exact Act.gives_pure
  | cons row rows =>
    have hpage := hat.page
    rw [hleft] at hpage hrest
    rw [Batch.pages, chunks_of_length_le hc (List.cons_ne_nil row rows) hrest]
    exact RunSet.gives_closePage hpage (List.cons_ne_nil row rows) (by simpa using i.full_lt)

theorem IsAt.attains_writeLeft (root : TempRoot) (h : spec.HasRoom capacity)
    {i : Intake spec.numBuffers capacity} (hat : i.IsAt s blockAndPage) (hrows : i.rows = all) :
    (RunSet.writeLeft spec capacity
      ⟨spec.numBuffers, capacity, Batch.pages capacity (i.full.flatten ++ i.rest)⟩).Attains root s
      (fun _ s' => ∃ runs : List (StoredRun capacity),
        s'.HasWritten spec runs (chunks (spec.numBuffers * capacity) all))
      (SortFault spec capacity all) := by
  obtain ⟨runs, hwritten⟩ := hat.written
  have hpos := Nat.mul_pos (Nat.zero_lt_of_lt i.full_lt) h.capacity_pos
  rw [← hrows, i.chunks_rows h.capacity_pos]
  by_cases hleft : i.full.flatten ++ i.rest = []
  · rw [hleft, chunks_nil, List.append_nil]
    exact Act.gives_pure.attains ⟨runs, hwritten⟩
  · rw [chunks_of_length_le hpos hleft i.length_left_le]
    have hnot : Block.isEmpty ⟨spec.numBuffers, capacity,
        Batch.pages capacity (i.full.flatten ++ i.rest)⟩ = false := by
      rw [Block.isEmpty, Batch.pages, chunks_of_ne_nil h.capacity_pos hleft]
      rfl
    rw [RunSet.writeLeft, hnot]
    refine (hwritten.attains_writeSorted root h i.length_piece hleft i.length_left_le
      (List.prefix_refl i.rows)).mono ?_ fun _ he => he
    rintro _ _ ⟨run, hs'⟩
    exact ⟨_, hs'⟩

end Intake

/-- The pieces that an input is sorted in: its blocks, or one without rows. -/
def inputPieces (n : Nat) (rows : List Row) : List (List Row) :=
  if rows.isEmpty then [[]] else chunks n rows

theorem flatten_inputPieces {n : Nat} (hn : 0 < n) (rows : List Row) :
    (inputPieces n rows).flatten = rows := by
  unfold inputPieces
  split
  · next hempty => exact (List.isEmpty_iff.mp hempty).symm
  · exact flatten_chunks hn rows

theorem length_inputPieces_le {n : Nat} (hn : 0 < n) (rows : List Row) :
    (inputPieces n rows).length ≤ max 1 rows.length := by
  unfold inputPieces
  split
  · exact Nat.le_max_left _ _
  · exact Nat.le_trans ((length_chunks_le_iff hn).mpr (Nat.le_mul_of_pos_right _ hn))
      (Nat.le_max_right _ _)

theorem inputPieces_ne_nil {n : Nat} (hn : 0 < n) (rows : List Row) : inputPieces n rows ≠ [] := by
  unfold inputPieces
  split
  · exact List.cons_ne_nil _ _
  · next hrows =>
    rw [chunks_of_ne_nil hn (by simpa using hrows)]
    exact List.cons_ne_nil _ _

namespace RunSet

variable {spec : SortSpec} {capacity : Nat} {all : List Row} {root : TempRoot} {s : RunSet}
  {blockAndPage : Block × Draft}

/-- Whether these are the runs that run generation makes of the whole input. -/
structure HasGenerated (spec : SortSpec) (all : List Row) (s : RunSet)
    (runs : List (StoredRun capacity)) : Prop where
  lists : s.Lists runs
  batches : runs.map StoredRun.batches =
    (inputPieces (spec.numBuffers * capacity) all).map (sortedPages spec capacity)
  names : ∀ run ∈ runs, ∃ n, run.name = spec.runName n
  stats : s.stats = statsOf capacity (chunks (spec.numBuffers * capacity) all)

theorem HasWritten.hasGenerated {runs : List (StoredRun capacity)} (hne : all ≠ [])
    (hs : s.HasWritten spec runs (chunks (spec.numBuffers * capacity) all)) :
    s.HasGenerated spec all runs where
  lists := hs.lists
  batches := by
    rw [hs.batches, inputPieces, List.isEmpty_eq_false_iff.mpr hne]
    rfl
  names run hrun := by
    have hmem := List.mem_map_of_mem (f := StoredRun.name) hrun
    rw [hs.names] at hmem
    obtain ⟨n, -, hname⟩ := List.mem_map.mp hmem
    exact ⟨n, hname.symm⟩
  stats := hs.stats

/-- An input without rows becomes a run too, so that there is one to read. -/
theorem HasWritten.attains_write_nil (root : TempRoot) (hc : 0 < capacity)
    (hs : s.HasWritten spec ([] : List (StoredRun capacity)) []) :
    (do
      write (spec.runName 0) []
      track (spec.runName 0)).Attains root s
      (fun _ s' => ∃ runs : List (StoredRun capacity), s'.HasGenerated spec [] runs)
      (SortFault spec capacity []) := by
  obtain ⟨folder, hfolder, hholds⟩ := hs.lists.folder
  have hname : spec.Names ([] : List Row).length (spec.runName 0) := .inl ⟨0, Nat.zero_le _, rfl⟩
  have hwrite := attains_write root hc hfolder hholds hname List.not_mem_nil (List.nil_subset [])
    (Nat.zero_le _)
  refine hwrite.bind ?_
  rintro _ t ⟨run, folder', hname, hbatches, hholds', rfl⟩
  refine (Act.gives_modify _).attains ⟨[run], ⟨⟨folder', rfl, hholds'⟩, ?_⟩, ?_, ?_, hs.stats⟩
  · rw [List.map_singleton, hname]
    exact congrArg (· ++ [spec.runName 0]) hs.lists.runs_eq
  · rw [List.map_singleton, hbatches, inputPieces, if_pos List.isEmpty_nil, List.map_singleton,
      sortedPages, Row.sortBy, List.mergeSort_nil]
  · simp [hname]

/-- When all rows are taken, the runs are those of the whole input. -/
theorem attains_takeEnd (root : TempRoot) (h : spec.HasRoom capacity)
    (hs : Intake.HasTaken spec capacity all blockAndPage s) :
    (takeEnd spec capacity blockAndPage).Attains root s
      (fun _ s' => ∃ runs : List (StoredRun capacity), s'.HasGenerated spec all runs)
      (SortFault spec capacity all) := by
  obtain ⟨i, hrows, hat⟩ := hs
  refine (hat.gives_closePage h.capacity_pos).bind_attains ?_
  refine (hat.attains_writeLeft root h hrows).bind ?_
  rintro _ t ⟨runs, hwritten⟩
  refine Act.ensures_get_bind.mpr ?_
  have hpos : 0 < spec.numBuffers * capacity :=
    Nat.mul_pos (Nat.zero_lt_of_lt i.full_lt) h.capacity_pos
  by_cases hall : all = []
  · subst hall
    obtain rfl : runs = [] := by
      have hbatches := hwritten.batches
      rwa [chunks_nil, List.map_nil, List.map_eq_nil_iff] at hbatches
    rw [if_pos (by rw [hwritten.lists.runs_eq]; rfl)]
    exact hwritten.attains_write_nil root h.capacity_pos
  · have hruns : t.runs ≠ [] := by
      have hlength := hwritten.length_eq
      rw [chunks_of_ne_nil hpos hall, List.length_cons] at hlength
      exact List.length_pos_iff.mp (by omega)
    rw [if_neg (by simpa using hruns)]
    exact Act.gives_pure.attains ⟨runs, hwritten.hasGenerated hall⟩

end RunSet

end PagedQuery
