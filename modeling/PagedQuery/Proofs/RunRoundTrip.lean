import PagedQuery.Proofs.BatchWriting
import PagedQuery.Proofs.DiskFiles
import PagedQuery.RunFile.Session

/-!
# Writing runs and reading them back

A batch is refused if it holds a row that is too wide, and nothing of it is written then. The bytes
on disk and those still buffered are always the header and the bytes of the batches taken so far, so
that a reader of the finished file is given exactly these batches.
-/

namespace PagedQuery
namespace RunFile

/-- Whether the file of a writer, with what is still buffered, holds the given bytes. -/
structure WriteHandle.Holds (h : WriteHandle) (disk : Disk) (bytes : Bytes) : Prop where
  file_lt : h.file < disk.contents.length
  position_eq : h.writer.position = (disk.content h.file).length
  content_eq : disk.content h.file ++ h.writer.buffered = bytes

namespace WriteHandle

variable {h : WriteHandle} {disk : Disk} {bytes more : Bytes}

theorem Holds.deliver {out : Writer × Chunk} (hh : h.Holds disk bytes)
    (hout : Passes h.writer more out) :
    (h.deliver disk out).2.Holds (h.deliver disk out).1 (bytes ++ more) := by
  have hcontent : (disk.write h.file out.2).content h.file =
      disk.content h.file ++ out.2.bytes := by
    rw [Disk.content_write hh.file_lt, Disk.over_of_position]
    rw [hout.position_eq, hh.position_eq]
  refine ⟨?_, ?_, ?_⟩
  · rw [WriteHandle.deliver, Disk.length_contents_write]
    exact hh.file_lt
  · change out.1.position = ((disk.write h.file out.2).content h.file).length
    rw [hcontent, hout.moves, hh.position_eq, List.length_append]
  · change (disk.write h.file out.2).content h.file ++ out.1.buffered = bytes ++ more
    rw [hcontent, List.append_assoc, hout.keeps, ← List.append_assoc, hh.content_eq]

theorem Holds.release (hh : h.Holds disk bytes) : (h.release disk).content h.file = bytes := by
  have hflush := (hh.deliver (passes_flush h.writer)).content_eq
  rw [List.append_nil] at hflush
  rw [← hflush]
  exact (List.append_nil _).symm

theorem fileAt?_release (name : String) : (h.release disk).fileAt? name = disk.fileAt? name :=
  Disk.fileAt?_write _

theorem Holds.finish (hh : h.Holds disk bytes) :
    (h.finish disk).content h.file = bytes ++ terminator :=
  (hh.deliver (passes_put h.writer terminator)).release

theorem Holds.file_lt_finish (hh : h.Holds disk bytes) :
    h.file < (h.finish disk).contents.length := by
  simpa only [WriteHandle.finish, WriteHandle.release, WriteHandle.deliver,
    Disk.length_contents_write] using hh.file_lt

theorem fileAt?_finish (name : String) : (h.finish disk).fileAt? name = disk.fileAt? name := by
  simp only [WriteHandle.finish, WriteHandle.release, WriteHandle.deliver, Disk.fileAt?_write]

theorem holds_create? {file path : String} {disk' : Disk}
    (h' : create? disk file path = some (disk', h)) :
    h.Holds disk' header ∧ h.writer.path = path ∧ disk'.fileAt? file = some h.file := by
  obtain ⟨⟨number, made⟩, hmade, heq⟩ := Option.map_eq_some_iff.mp h'
  obtain ⟨rfl, rfl⟩ := Prod.mk.inj heq
  obtain ⟨hlt, hcontent, hname⟩ := Disk.create?_spec hmade
  exact ⟨⟨hlt, by rw [hcontent]; rfl, by rw [hcontent]; rfl⟩, rfl, hname⟩

end WriteHandle

namespace ReadHandle

variable {disk : Disk}

/-- The reader with all at hand that its file holds. -/
def resume (h : ReadHandle) (disk : Disk) : Reader :=
  { h.reader with input := ⟨h.reader.input.fetched, (disk.content h.file).drop h.offset⟩ }

theorem resume_pause {file offset : Nat} {reader : Reader}
    (hrest : reader.input.rest <:+ (disk.content file).drop offset) :
    (pause file reader offset ((disk.content file).drop offset).length).resume disk = reader := by
  have hdrop := List.suffix_iff_eq_drop.mp hrest
  rw [List.drop_drop] at hdrop
  rcases reader with ⟨path, ⟨fetched, rest⟩, capacity, isDone⟩
  simp only at hdrop
  simp only [resume, pause]
  rw [← hdrop]

/-- On a disk at rest a reader of its file answers as if it had all of the file at hand. -/
theorem next_eq (h : ReadHandle) (disk : Disk) :
    (h.next disk).1 = (h.resume disk).next.1 ∧
      (h.next disk).2.resume disk = (h.resume disk).next.2 :=
  ⟨rfl, resume_pause (Reader.next_rest_suffix (h.resume disk))⟩

theorem resume_ofFile {file path : String} {number capacity : Nat} {reader : Reader}
    (hname : disk.fileAt? file = some number)
    (hreader : Reader.ofContent path (disk.content number) capacity = .ok reader) :
    ∃ h, ofFile disk file path capacity = .ok h ∧ h.resume disk = reader := by
  refine ⟨pause number reader 0 (disk.content number).length, ?_, ?_⟩
  · simp only [ofFile, hname, hreader]
    rfl
  · have hrest := Reader.rest_suffix_of_ofContent hreader
    rw [← List.drop_zero (l := disk.content number)] at hrest
    exact resume_pause hrest

end ReadHandle

namespace Session

/-- Appends batches one after the other, whatever becomes of each. -/
def writeEach (s : Session) : List Batch → List (Except Error Unit) × Session
  | [] => ([], s)
  | batch :: batches =>
    match s.writer with
    | none => ([], s)
    | some h =>
      let (answer, s) := s.writeBatch h batch
      let (answers, s) := s.writeEach batches
      (answer :: answers, s)

def complete (s : Session) : Session :=
  match s.writer with
  | none => s
  | some h => (s.finish h).2

def readEach (s : Session) : Nat → List (Except Error (Option Batch))
  | 0 => []
  | calls + 1 =>
    match s.reader with
    | none => []
    | some h => (s.next h).1 :: (s.next h).2.readEach calls

theorem readEach_eq {s : Session} {h : ReadHandle} (hs : s.reader = some h) (calls : Nat) :
    s.readEach calls = (h.resume s.disk).answers calls := by
  induction calls generalizing s h with
  | zero => rfl
  | succ calls ih =>
    obtain ⟨hanswer, hnext⟩ := h.next_eq s.disk
    have hrest : (s.next h).2.readEach calls = ((h.next s.disk).2.resume s.disk).answers calls :=
      ih rfl
    rw [readEach, hs, Reader.answers, ← hanswer, ← hnext, ← hrest]
    rfl

end Session

/-- What becomes of an attempt to write a batch. -/
def verdict (batch : Batch) : Except Error Unit :=
  match batch.rows.find? Row.isWide with
  | some row => .error (.rowTooWide row.length)
  | none => .ok ()

/-- Whether a batch gets into a run: it has rows, none of which is too wide. -/
def isKept (batch : Batch) : Bool := !batch.isEmpty && !batch.rows.any Row.isWide

/-- The batches of a run as a reader with pages of a capacity hands them out. -/
def kept (capacity : Nat) (batches : List Batch) : List Batch :=
  (batches.filter isKept).map fun batch => ⟨capacity, batch.rows⟩

theorem kept_cons (capacity : Nat) (batch : Batch) (batches : List Batch) :
    kept capacity (batch :: batches) = kept capacity [batch] ++ kept capacity batches := by
  rw [kept, kept, kept, ← List.map_append, ← List.filter_append, List.singleton_append]

/-- The bytes that a batch without rows that are too wide adds to a run spell the page it is read
as, if it has rows at all. -/
theorem exists_spelling {path : String} {batch : Batch} {bytes : Bytes} {capacity : Nat}
    (hany : batch.rows.any Row.isWide = false)
    (hfits : isKept batch = true → batch.length ≤ capacity)
    (h : encodeBatch path batch = .ok bytes) :
    ∃ bodies, Reader.SpellsBatches capacity (kept capacity [batch]) bodies ∧
      bodies.flatten = bytes := by
  by_cases hrows : batch.rows = []
  · have hnone : kept capacity [batch] = [] := by simp [kept, isKept, Batch.isEmpty, hrows]
    rw [encodeBatch_of_isEmpty hrows] at h
    rw [hnone]
    exact ⟨[], .nil, Except.ok.inj h⟩
  · have hkept : isKept batch = true := by simp [isKept, Batch.isEmpty, hrows, hany]
    have hone : kept capacity [batch] = [⟨capacity, batch.rows⟩] := by simp [kept, hkept]
    rw [hone]
    exact ⟨[bytes], .cons (spellsBatch_of_encodeBatch hrows (hfits hkept) h) .nil, by simp⟩

namespace Session

/-- Whether a run with these bytes so far is being written to a file. -/
structure Writing (s : Session) (h : WriteHandle) (file : String) (bytes : Bytes) : Prop where
  writer_eq : s.writer = some h
  holds : h.Holds s.disk bytes
  name_eq : s.disk.fileAt? file = some h.file

variable {s : Session} {h : WriteHandle} {file : String} {bytes : Bytes} {capacity : Nat}

/-- A batch that can be encoded is written behind the others. -/
theorem Writing.writeBatch_of_encodeBatch {batch : Batch} {more : Bytes}
    (hs : s.Writing h file bytes) (hmore : encodeBatch h.writer.path batch = .ok more) :
    ∃ s' h', s.writeBatch h batch = (.ok (), s') ∧ s'.root = s.root ∧
      s'.Writing h' file (bytes ++ more) := by
  obtain ⟨chunk, writer, hwrite, hpasses⟩ := Writer.writeBatch_of_encodeBatch hmore
  let out := h.deliver s.disk (writer, chunk)
  refine ⟨{ s with disk := out.1, writer := some out.2 }, out.2, ?_, rfl, rfl, ?_, ?_⟩
  · rw [Session.writeBatch, WriteHandle.writeBatch, hwrite]
  · exact hs.holds.deliver hpasses
  · exact (Disk.fileAt?_write chunk).trans hs.name_eq

/-- A batch that cannot be encoded changes nothing but the scratch buffer of the writer. -/
theorem Writing.writeBatch_of_error {batch : Batch} {e : Error} (hs : s.Writing h file bytes)
    (he : encodeBatch h.writer.path batch = .error e) :
    ∃ s' h', s.writeBatch h batch = (.error e, s') ∧ s'.root = s.root ∧
      s'.Writing h' file bytes := by
  obtain ⟨scratch, hwrite⟩ := Writer.writeBatch_of_error he
  let refused : WriteHandle := { h with writer := { h.writer with scratch } }
  refine ⟨{ s with writer := some refused }, refused, ?_, rfl, rfl, ?_, hs.name_eq⟩
  · rw [Session.writeBatch, WriteHandle.writeBatch, hwrite]
  · exact ⟨hs.holds.file_lt, hs.holds.position_eq, hs.holds.content_eq⟩

/-- An attempt to write a batch gives its verdict and adds a spelling of what is kept of it. -/
theorem Writing.writeBatch {batch : Batch} (hs : s.Writing h file bytes)
    (hcount : batch.length < 0x100000000) (hshort : ∀ row ∈ batch.rows, Row.HasShortStrings row)
    (hfits : isKept batch = true → batch.length ≤ capacity) :
    ∃ s' h' bodies, s.writeBatch h batch = (verdict batch, s') ∧ s'.root = s.root ∧
      s'.Writing h' file (bytes ++ bodies.flatten) ∧
      Reader.SpellsBatches capacity (kept capacity [batch]) bodies := by
  cases hfind : batch.rows.find? Row.isWide with
  | some row =>
    -- What a refused batch leaves in the scratch buffer is cleared before the next one.
    have hany : batch.rows.any Row.isWide = true :=
      List.any_eq_true.mpr ⟨row, List.mem_of_find?_eq_some hfind, List.find?_some hfind⟩
    have hnone : kept capacity [batch] = [] := by simp [kept, isKept, hany]
    rw [hnone]
    obtain ⟨s', h', hwrite, hroot, hs'⟩ :=
      hs.writeBatch_of_error (encodeBatch_of_wide hcount hshort hfind)
    exact ⟨s', h', [], by rw [hwrite, verdict, hfind], hroot, by simpa using hs', .nil⟩
  | none =>
    have hany : batch.rows.any Row.isWide = false :=
      List.any_eq_false.mpr (List.find?_eq_none.mp hfind)
    obtain ⟨more, hmore⟩ := exists_encodeBatch h.writer.path hcount hshort hfind
    obtain ⟨bodies, hbodies, rfl⟩ := exists_spelling hany hfits hmore
    obtain ⟨s', h', hwrite, hroot, hs'⟩ := hs.writeBatch_of_encodeBatch hmore
    exact ⟨s', h', bodies, by rw [hwrite, verdict, hfind], hroot, hs', hbodies⟩

/-- Batches written one after the other add the spellings of those that are kept. -/
theorem Writing.writeEach {batches : List Batch} (hs : s.Writing h file bytes)
    (hcounts : ∀ batch ∈ batches, batch.length < 0x100000000)
    (hshort : ∀ batch ∈ batches, ∀ row ∈ batch.rows, Row.HasShortStrings row)
    (hfits : ∀ batch ∈ batches, isKept batch = true → batch.length ≤ capacity) :
    ∃ s' h' bodies, s.writeEach batches = (batches.map verdict, s') ∧ s'.root = s.root ∧
      s'.Writing h' file (bytes ++ bodies.flatten) ∧
      Reader.SpellsBatches capacity (kept capacity batches) bodies := by
  induction batches generalizing s h bytes with
  | nil => exact ⟨s, h, [], rfl, rfl, by simpa using hs, .nil⟩
  | cons batch batches ih =>
    rw [List.forall_mem_cons] at hcounts hshort hfits
    obtain ⟨s₁, h₁, bodies₁, hstep, hroot₁, hs₁, hbodies₁⟩ :=
      hs.writeBatch hcounts.1 hshort.1 hfits.1
    obtain ⟨s₂, h₂, bodies₂, hrest, hroot₂, hs₂, hbodies₂⟩ :=
      ih hs₁ hcounts.2 hshort.2 hfits.2
    refine ⟨s₂, h₂, bodies₁ ++ bodies₂, ?_, hroot₂.trans hroot₁, ?_, ?_⟩
    · rw [Session.writeEach, hs.writer_eq]
      simp only [hstep, hrest, List.map_cons]
    · rwa [List.flatten_append, ← List.append_assoc]
    · rw [kept_cons]
      exact List.rel_append hbodies₁ hbodies₂

theorem writing_create (hcreate : (s.create file).1 = .ok ()) :
    ∃ h, (s.create file).2.Writing h file header := by
  rw [create] at hcreate ⊢
  cases hmade : WriteHandle.create? s.dropWriter.disk file (s.dropWriter.path file) with
  | none => rw [hmade] at hcreate; cases hcreate
  | some made =>
    rcases made with ⟨disk, h⟩
    obtain ⟨hholds, -, hname⟩ := WriteHandle.holds_create? hmade
    exact ⟨h, rfl, hholds, hname⟩

theorem readEach_openRun {number : Nat} {reader : Reader}
    (hname : s.disk.fileAt? file = some number)
    (hreader : Reader.ofContent (s.path file) (s.disk.content number) capacity = .ok reader) :
    (s.openRun file capacity).1 = .ok () ∧
      ∀ calls, (s.openRun file capacity).2.readEach calls = reader.answers calls := by
  obtain ⟨r, hopen, hresume⟩ := ReadHandle.resume_ofFile hname hreader
  rw [openRun, hopen]
  exact ⟨rfl, fun calls => by rw [readEach_eq rfl, ← hresume]⟩

theorem openRun_of_error {number : Nat} {e : Error} (hname : s.disk.fileAt? file = some number)
    (h : Reader.ofContent (s.path file) (s.disk.content number) capacity = .error e) :
    (s.openRun file capacity).1 = .error e := by
  have hopen : ReadHandle.ofFile s.disk file (s.path file) capacity = .error e := by
    simp only [ReadHandle.ofFile, hname, h]
    rfl
  rw [openRun, hopen]

theorem Writing.complete_eq (hs : s.Writing h file bytes) :
    s.complete = { s with disk := h.finish s.disk, writer := none } := by
  rw [complete, hs.writer_eq]
  rfl

/-- A completed run is read as the batches spelled in it. -/
theorem Writing.readEach_complete {bodies : List Bytes} {batches : List Batch}
    (hs : s.Writing h file (header ++ bodies.flatten))
    (hbodies : Reader.SpellsBatches capacity batches bodies) :
    (s.complete.openRun file capacity).1 = .ok () ∧ ∀ calls,
      (s.complete.openRun file capacity).2.readEach calls =
        (Reader.given batches ++ List.replicate calls (Except.ok none)).take calls := by
  obtain ⟨reader, hreader, hanswers⟩ :=
    Reader.exists_answers_of_spellsBatches hbodies (s.path file)
  rw [← hs.holds.finish] at hreader
  rw [hs.complete_eq]
  obtain ⟨hopen, hread⟩ := readEach_openRun
    (s := { s with disk := h.finish s.disk, writer := none })
    ((WriteHandle.fileAt?_finish file).trans hs.name_eq) hreader
  exact ⟨hopen, fun calls => (hread calls).trans (hanswers calls)⟩

/-- Runs round-trip, also around failed writes. Exactly the batches with a row that is too wide are
refused, and a reader whose pages have room for the others is given these in their order, each with
its rows as they were, and then the end for good. -/
theorem readEach_writeEach (s : Session) (file : String) (batches : List Batch) (capacity : Nat)
    (hcreate : (s.create file).1 = .ok ())
    (hcounts : ∀ batch ∈ batches, batch.length < 0x100000000)
    (hshort : ∀ batch ∈ batches, ∀ row ∈ batch.rows, Row.HasShortStrings row)
    (hfits : ∀ batch ∈ batches, isKept batch = true → batch.length ≤ capacity) :
    ((s.create file).2.writeEach batches).1 = batches.map verdict ∧
      (((s.create file).2.writeEach batches).2.complete.openRun file capacity).1 = .ok () ∧
      ∀ calls,
        (((s.create file).2.writeEach batches).2.complete.openRun file capacity).2.readEach calls =
          (Reader.given (kept capacity batches) ++
            List.replicate calls (Except.ok none)).take calls := by
  obtain ⟨h, hs⟩ := writing_create hcreate
  obtain ⟨s', h', bodies, hwrite, -, hs', hbodies⟩ := hs.writeEach hcounts hshort hfits
  obtain ⟨hopen, hread⟩ := hs'.readEach_complete hbodies
  rw [hwrite]
  exact ⟨rfl, hopen, hread⟩

/-- A row that no run can hold. -/
def wideRow : Row := List.replicate 0x10000 .null

theorem length_wideRow : wideRow.length = 0x10000 := List.length_replicate

theorem isWide_wideRow : wideRow.isWide = true := by
  rw [Row.isWide, length_wideRow]
  decide

def mixedBatches : List Batch :=
  [⟨3, [[.int 7, .float ⟨0x8000000000000000⟩], [.string "é"]]⟩, ⟨2, [[.null], wideRow]⟩, ⟨4, []⟩,
    ⟨1, [[]]⟩]

theorem readEach_writeEach_mixedBatches :
    ((start "dir").create "run").1 = .ok () ∧
      (((start "dir").create "run").2.writeEach mixedBatches).1 =
        [.ok (), .error (.rowTooWide 0x10000), .ok (), .ok ()] ∧
      ((((start "dir").create "run").2.writeEach mixedBatches).2.complete.openRun "run" 2).2.readEach 4 =
        [.ok (some ⟨2, [[.int 7, .float ⟨0x8000000000000000⟩], [.string "é"]]⟩),
          .ok (some ⟨2, [[]]⟩), .ok none, .ok none] := by
  have hshort : ∀ batch ∈ mixedBatches, ∀ row ∈ batch.rows, Row.HasShortStrings row := by
    simp only [mixedBatches, List.forall_mem_cons]
    refine ⟨⟨?_, ?_, by simp⟩, ⟨?_, ?_, by simp⟩, by simp, ⟨?_, by simp⟩, by simp⟩ <;>
      intro text htext
    · simp at htext
    · obtain rfl : text = "é" := by simpa using htext
      decide
    · simp at htext
    · cases List.eq_of_mem_replicate htext
    · simp at htext
  have hwide : verdict ⟨2, [[.null], wideRow]⟩ = .error (.rowTooWide 0x10000) := by
    have hfound : List.find? Row.isWide [[.null], wideRow] = some wideRow := by
      rw [List.find?_cons_of_neg (by decide), List.find?_cons_of_pos isWide_wideRow]
    rw [verdict, hfound, ← length_wideRow]
  have hverdicts : mixedBatches.map verdict =
      [.ok (), .error (.rowTooWide 0x10000), .ok (), .ok ()] := by
    rw [mixedBatches, List.map_cons, List.map_cons, hwide]
    rfl
  have hrefused : isKept ⟨2, [[.null], wideRow]⟩ = false := by simp [isKept, isWide_wideRow]
  have hkept : kept 2 mixedBatches =
      [⟨2, [[.int 7, .float ⟨0x8000000000000000⟩], [.string "é"]]⟩, ⟨2, [[]]⟩] := by
    rw [kept, mixedBatches, List.filter_cons_of_pos (by rfl),
      List.filter_cons_of_neg (by simp [hrefused])]
    rfl
  obtain ⟨hwritten, -, hread⟩ := readEach_writeEach (start "dir") "run" mixedBatches 2 (by rfl)
    (by simp [mixedBatches, Batch.length]) hshort
    (by simp [mixedBatches, Batch.length])
  rw [hverdicts] at hwritten
  refine ⟨by rfl, hwritten, ?_⟩
  rw [hread 4, hkept]
  rfl

end Session

end RunFile
end PagedQuery
