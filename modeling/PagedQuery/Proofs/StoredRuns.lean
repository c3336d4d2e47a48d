import Mathlib.Data.List.Perm.Basic
import PagedQuery.Proofs.ActAnswers
import PagedQuery.Proofs.Paging
import PagedQuery.Proofs.RunEncoding
import PagedQuery.Proofs.RunStreams

namespace PagedQuery

/-- Whether a row can be written to a run. -/
structure Row.IsStorable (row : Row) : Prop where
  narrow : row.length ≤ 0xffff
  short : row.HasShortStrings

instance (row : Row) : Decidable row.IsStorable :=
  decidable_of_iff (row.length ≤ 0xffff ∧ row.HasShortStrings)
    ⟨fun h => ⟨h.1, h.2⟩, fun h => ⟨h.narrow, h.short⟩⟩

namespace RunFile

/-- Whether these are the bytes of a run with these batches. -/
def IsRun (capacity : Nat) (batches : List Batch) (content : Bytes) : Prop :=
  ∃ bodies, Reader.SpellsBatches capacity batches bodies ∧
    content = header ++ bodies.flatten ++ terminator

theorem isRun_of_encode_pages {capacity : Nat} (hc : 0 < capacity) {rows : List Row} {path : String}
    {content : Bytes} (h : encode path (Batch.pages capacity rows) = .ok content) :
    IsRun capacity (Batch.pages capacity rows) content := by
  obtain ⟨bodies, hbodies, hcontent⟩ := exists_of_bind_eq_ok h
  refine ⟨bodies, (Reader.spellsBatches_iff path).mpr ⟨fun batch hbatch => ?_, hbodies⟩,
    (Except.ok.inj hcontent).symm⟩
  obtain ⟨hcapacity, hpos, hle, -, -⟩ := Batch.mem_pages hc hbatch
  exact ⟨hcapacity, hpos, hle⟩

/-- Rows that can be stored can be written as a page, unless there are too many of them. -/
theorem exists_encodeBatch_of_isStorable {batch : Batch} (hcount : batch.length < 0x100000000)
    (hrows : ∀ row ∈ batch.rows, Row.IsStorable row) (path : String) :
    ∃ bytes, encodeBatch path batch = .ok bytes := by
  refine exists_encodeBatch path hcount (fun row hrow => (hrows row hrow).short) ?_
  rw [List.find?_eq_none]
  intro row hrow hwide
  have hlong : 0xffff < row.length := of_decide_eq_true hwide
  exact Nat.not_le_of_lt hlong (hrows row hrow).narrow

theorem exists_encode_pages {capacity : Nat} (hc : 0 < capacity) {rows : List Row}
    (hcount : min capacity rows.length < 0x100000000) (hrows : ∀ row ∈ rows, row.IsStorable)
    (path : String) : ∃ content, encode path (Batch.pages capacity rows) = .ok content := by
  have hbatch : ∀ batch ∈ Batch.pages capacity rows, ∃ bytes, encodeBatch path batch = .ok bytes := by
    intro batch hbatch
    obtain ⟨-, -, hle, hsub, hlength⟩ := Batch.mem_pages hc hbatch
    exact exists_encodeBatch_of_isStorable (by omega) (fun row hrow => hrows row (hsub hrow)) path
  obtain ⟨bodies, hbodies⟩ := exists_forall₂ hbatch
  refine ⟨header ++ bodies.flatten ++ terminator, ?_⟩
  rw [encode, mapM_eq_ok_iff.mpr hbodies]
  rfl

theorem encodeBatch_of_long (path : String) {batch : Batch} (h : 0x100000000 ≤ batch.length) :
    encodeBatch path batch = .error (.runFile path .batchTooLarge) := by
  have hempty : ¬batch.isEmpty = true := by
    intro hempty
    have hnone : batch.length = 0 := congrArg List.length (List.isEmpty_iff.mp hempty)
    omega
  rw [encodeBatch, if_neg hempty, if_neg (Nat.not_lt.mpr h)]

theorem encode_long_page (path : String) {batch : Batch} (h : 0x100000000 ≤ batch.length) :
    encode path [batch] = .error (.runFile path .batchTooLarge) := by
  rw [encode, List.mapM_cons, encodeBatch_of_long path h]
  rfl

/-- Whether the next calls of a reader give these batches, each with rows, and then its end. -/
inductive Reader.HandsOut : Reader → List Batch → Prop
  | ended {r r' : Reader} (hnext : r.next = (.ok none, r')) (hdone : r'.isDone = true) :
      HandsOut r []
  | batch {r r' : Reader} {batch : Batch} {batches : List Batch}
      (hnext : r.next = (.ok (some batch), r')) (hrows : batch.rows ≠ [])
      (hrest : HandsOut r' batches) : HandsOut r (batch :: batches)

namespace Reader

variable {r : Reader} {batch : Batch} {batches : List Batch}

theorem HandsOut.of_isDone (h : r.isDone = true) : r.HandsOut [] := .ended (next_of_isDone h) h

theorem HandsOut.next_end (h : r.HandsOut []) : ∃ r', r.next = (.ok none, r') ∧ r'.HandsOut [] := by
  cases h with
  | ended hnext hdone => exact ⟨_, hnext, .of_isDone hdone⟩

theorem HandsOut.next_batch (h : r.HandsOut (batch :: batches)) :
    ∃ r', r.next = (.ok (some batch), r') ∧ batch.rows ≠ [] ∧ r'.HandsOut batches := by
  cases h with
  | batch hnext hrows hrest => exact ⟨_, hnext, hrows, hrest⟩

theorem IsAt.handsOut {path : String} {capacity : Nat} {bodies : List Bytes} {rest : Bytes}
    (h : r.IsAt path capacity (bodies.flatten ++ (terminator ++ rest)))
    (hbodies : SpellsBatches capacity batches bodies) : r.HandsOut batches := by
  induction hbodies generalizing r with
  | nil =>
    obtain ⟨r', hnext, hdone, -⟩ := h.next_end
    exact .ended hnext hdone
  | cons hbatch _ ih =>
    rw [List.flatten_cons, List.append_assoc] at h
    obtain ⟨r', hnext, hr'⟩ := h.next_batch hbatch
    exact .batch hnext hbatch.2.1 (ih hr')

theorem HandsOut.rows_ne_nil (h : r.HandsOut batches) : ∀ batch ∈ batches, batch.rows ≠ [] := by
  induction h with
  | ended => exact List.forall_mem_nil _
  | batch _ hrows _ ih => exact List.forall_mem_cons.mpr ⟨hrows, ih⟩

theorem HandsOut.total_le (h : r.HandsOut batches) :
    total (fun batch : Batch => batch.length + 1) batches ≤ r.input.length := by
  induction h with
  | ended => exact Nat.zero_le _
  | @batch r r' batch batches hnext _ _ ih =>
    have hcost := r.pageCost_next
    simp only [hnext, pageCost] at hcost
    rw [total_cons]
    omega

/-- A run is read to its end as the rows of its batches. -/
theorem HandsOut.stream_eq (h : r.HandsOut batches) :
    r.stream = ⟨batches.flatMap (·.rows), none⟩ := by
  induction h with
  | ended hnext => exact stream_of_end hnext
  | batch hnext _ _ ih =>
    rw [stream_of_batch hnext, ih]
    rfl

end Reader

theorem IsRun.exists_handsOut {capacity : Nat} {batches : List Batch} {content : Bytes}
    (h : IsRun capacity batches content) (path : String) :
    ∃ reader, Reader.ofContent path content capacity = .ok reader ∧ reader.HandsOut batches := by
  obtain ⟨bodies, hbodies, rfl⟩ := h
  obtain ⟨reader, hreader, hat⟩ :=
    Reader.isAt_of_header path capacity (bodies.flatten ++ terminator)
  rw [List.append_assoc]
  rw [← List.append_nil terminator] at hat
  exact ⟨reader, by simpa using hreader, hat.handsOut hbodies⟩

end RunFile

/-- A file that is read as some batches. -/
structure StoredRun (capacity : Nat) where
  name : String
  batches : List Batch
  content : Bytes
  isRun : RunFile.IsRun capacity batches content

namespace StoredRun

variable {capacity : Nat}

def rows (run : StoredRun capacity) : List Row := run.batches.flatMap (·.rows)

def entry (run : StoredRun capacity) : String × Bytes := (run.name, run.content)

end StoredRun

/-- Whether the files of a folder are these runs. -/
structure Folder.Holds {capacity : Nat} (folder : Folder) (runs : List (StoredRun capacity)) :
    Prop where
  files : folder.files.Perm (runs.map StoredRun.entry)
  nodup : (runs.map StoredRun.name).Nodup

namespace Folder.Holds

variable {capacity : Nat} {folder : Folder} {runs runs' : List (StoredRun capacity)}

theorem perm (h : folder.Holds runs) (hperm : runs.Perm runs') : folder.Holds runs' where
  files := h.files.trans (hperm.map _)
  nodup := (hperm.map _).nodup_iff.mp h.nodup

theorem keys_nodup (h : folder.Holds runs) : (folder.files.map Prod.fst).Nodup := by
  have hkeys := (h.files.map Prod.fst).nodup_iff
  rw [List.map_map] at hkeys
  exact hkeys.mpr h.nodup

theorem lookup_of_mem {α β : Type} [BEq α] [LawfulBEq α] {entries : List (α × β)}
    (hnodup : (entries.map Prod.fst).Nodup) {a : α} {b : β} (h : (a, b) ∈ entries) :
    entries.lookup a = some b := by
  induction entries with
  | nil => cases h
  | cons entry entries ih =>
    obtain ⟨a', b'⟩ := entry
    rw [List.map_cons, List.nodup_cons] at hnodup
    rcases List.mem_cons.mp h with heq | hmem
    · obtain ⟨rfl, rfl⟩ := Prod.mk.inj heq
      exact List.lookup_cons_self
    · have hne : a ≠ a' := by
        rintro rfl
        exact hnodup.1 (List.mem_map.mpr ⟨_, hmem, rfl⟩)
      rw [List.lookup_cons, beq_eq_false_iff_ne.mpr hne]
      exact ih hnodup.2 hmem

theorem read?_eq (h : folder.Holds runs) {run : StoredRun capacity} (hrun : run ∈ runs) :
    folder.read? run.name = some run.content :=
  lookup_of_mem h.keys_nodup (h.files.mem_iff.mpr (List.mem_map_of_mem hrun))

theorem put (h : folder.Holds runs) (run : StoredRun capacity)
    (hname : run.name ∉ runs.map StoredRun.name) :
    (folder.put run.name run.content).Holds (run :: runs) := by
  have hnone : folder.read? run.name = none := by
    rw [Folder.read?, List.lookup_eq_none_iff]
    intro entry hentry
    obtain ⟨other, hother, rfl⟩ := List.mem_map.mp (h.files.mem_iff.mp hentry)
    simp only [bne_iff_ne, ne_eq, StoredRun.entry]
    rintro heq
    exact hname (heq ▸ List.mem_map_of_mem hother)
  constructor
  · rw [Folder.put, hnone]
    exact (List.perm_append_singleton _ _).trans (h.files.cons _)
  · rw [List.map_cons, List.nodup_cons]
    exact ⟨hname, h.nodup⟩

theorem remove {run : StoredRun capacity} (h : folder.Holds (run :: runs)) :
    (folder.remove run.name).Holds runs := by
  have hnodup := h.nodup
  rw [List.map_cons, List.nodup_cons] at hnodup
  constructor
  · have hothers : ∀ entry ∈ runs.map StoredRun.entry, (entry.1 != run.name) = true := by
      intro entry hentry
      obtain ⟨other, hother, rfl⟩ := List.mem_map.mp hentry
      rw [bne_iff_ne]
      exact fun heq => hnodup.1 (heq ▸ List.mem_map_of_mem hother)
    have hfilter := h.files.filter (·.1 != run.name)
    rw [List.map_cons, List.filter_cons_of_neg (by simp [StoredRun.entry]),
      List.filter_eq_self.mpr hothers] at hfilter
    exact hfilter
  · exact hnodup.2

theorem removeAll {gone : List (StoredRun capacity)} (h : folder.Holds (gone ++ runs)) :
    ((gone.map StoredRun.name).foldl Folder.remove folder).Holds runs := by
  induction gone generalizing folder with
  | nil => exact h
  | cons run gone ih => exact ih h.remove

theorem exists_ofFile (h : folder.Holds runs) {run : StoredRun capacity} (hrun : run ∈ runs) :
    ∃ reader, RunFile.Reader.ofFile folder run.name capacity = .ok reader ∧
      reader.HandsOut run.batches := by
  rw [RunFile.Reader.ofFile, h.read?_eq hrun]
  exact run.isRun.exists_handsOut _

end Folder.Holds

end PagedQuery
