import PagedQuery.Proofs.LocalScans
import PagedQuery.Proofs.RunRoundTrip

/-!
# Runs that were cut off

A scan that does not run out of bytes does the same on every longer file. So where a file ends inside
a field, a row or a count, nothing can be read for it: a run that lacks some of its last bytes is read
up to a batch that was written, and reported as truncated from there on.
-/

namespace PagedQuery

variable {α : Type}

namespace Scan

/-- A scan that either runs out of bytes, with all of them taken, or ends in the same way on every
longer input and leaves the further bytes behind what it leaves now. -/
def Settles (x : Scan α) : Prop :=
  ∀ input, x.perform input = (.error .truncated, ⟨[], []⟩) ∨
    ∀ (longer : Input) more, longer.unread = input.unread ++ more →
      (x.perform longer).1 = (x.perform input).1 ∧
        (x.perform longer).2.unread = (x.perform input).2.unread ++ more

/-- Bytes behind those that a local scan takes are left where they are. -/
theorem IsLocal.settles {x : Scan α} (h : IsLocal x) : Settles x := by
  intro input
  refine (h input).imp_right ?_
  rintro ⟨taken, rest, hinput, -, hends⟩ longer more hlonger
  rw [hinput, List.append_assoc] at hlonger
  obtain ⟨-, hrest⟩ := hends input rest hinput
  obtain ⟨hanswer, hmore⟩ := hends longer (rest ++ more) hlonger
  exact ⟨hanswer, hmore.trans (congrArg (· ++ more) hrest.symm)⟩

/-- A spelling that was cut off is not read as anything. -/
theorem Settles.perform_cut {x : Scan α} {spells : α → Bytes → Prop} {a : α} {cut more : Bytes}
    (hx : Settles x) (hparses : Parses x spells) (ha : spells a (cut ++ more)) (hmore : more ≠ [])
    {input : Input} (hinput : input.unread = cut) : x.perform input = (.error .truncated, ⟨[], []⟩) := by
  refine (hx input).resolve_right fun hsame => hmore ?_
  have hwhole : (Input.ofContent (cut ++ more)).unread = cut ++ more ++ [] :=
    (List.append_nil _).symm
  obtain ⟨input', hrun, hrest⟩ := hparses.complete ha hwhole
  obtain ⟨-, hleft⟩ := hsame (.ofContent (cut ++ more)) more (by rw [hinput]; rfl)
  rw [hrun] at hleft
  exact (List.append_eq_nil_iff.mp (hleft.symm.trans hrest)).2

end Scan

/-- What is cut off the end of two parts in a row leaves the first one whole, or cuts it too. -/
theorem cut_cases {front back cut more : List α} (h : front ++ back = cut ++ more) :
    (∃ behind, cut = front ++ behind ∧ back = behind ++ more) ∨
      ∃ lost, lost ≠ [] ∧ front = cut ++ lost := by
  rcases List.append_eq_append_iff.mp h with hbehind | ⟨lost, hfront, hmore⟩
  · exact .inl hbehind
  · by_cases hlost : lost = []
    · subst hlost
      rw [List.append_nil] at hfront
      exact .inl ⟨[], by rw [hfront, List.append_nil], hmore.symm⟩
    · exact .inr ⟨lost, hlost, hfront⟩

namespace RunFile

namespace Reader

variable {r : Reader} {path : String} {capacity : Nat} {cut more : Bytes}

/-- Inside a batch or the terminator there is nothing to read, and nothing is left after that. -/
theorem IsAt.next_cut {answer : Option Batch} (h : r.IsAt path capacity cut)
    (hspells : Scan.SpellsBatch capacity answer (cut ++ more)) (hmore : more ≠ []) :
    ∃ r', r.next = (.error (.runFile path .truncated), r') ∧ r'.IsAt path capacity [] := by
  have hperform := (Scan.IsLocal.batch? capacity).settles.perform_cut (Scan.Parses.batch? capacity)
    hspells hmore h.unread_eq
  refine ⟨{ r with input := ⟨[], []⟩ }, ?_, h.path_eq, h.capacity_eq, h.isDone_eq, rfl⟩
  rw [next, if_neg (by simp [h.isDone_eq]), h.capacity_eq, hperform, h.path_eq]

/-- Where no byte is left, every call reports the run as truncated. -/
theorem IsAt.answers_nil (h : r.IsAt path capacity []) (calls : Nat) :
    r.answers calls = List.replicate calls (.error (.runFile path .truncated)) := by
  have hspells : Scan.SpellsBatch capacity none ([] ++ terminator) := rfl
  induction calls generalizing r with
  | zero => rfl
  | succ calls ih =>
    obtain ⟨r', hnext, hr'⟩ := h.next_cut hspells (by decide)
    rw [answers, hnext, List.replicate_succ]
    exact congrArg _ (ih hr')

/-- What a reader gives that is before some batches in a file that breaks off behind them. -/
def broken (path : String) (front : List Batch) (calls : Nat) :
    List (Except Error (Option Batch)) :=
  (given front ++ List.replicate calls (Except.error (Error.runFile path .truncated))).take calls

theorem IsAt.answers_cut {answer : Option Batch} (h : r.IsAt path capacity cut)
    (hspells : Scan.SpellsBatch capacity answer (cut ++ more)) (hmore : more ≠ []) (calls : Nat) :
    r.answers calls = broken path [] calls := by
  obtain ⟨r', hnext, hr'⟩ := h.next_cut hspells hmore
  cases calls with
  | zero => rfl
  | succ calls =>
    rw [answers, hnext, broken, given, List.map_nil, List.nil_append,
      List.take_of_length_le (Nat.le_of_eq List.length_replicate), List.replicate_succ]
    exact congrArg _ (hr'.answers_nil calls)

theorem broken_cons (path : String) (batch : Batch) (front : List Batch) (calls : Nat) :
    broken path (batch :: front) (calls + 1) = .ok (some batch) :: broken path front calls := by
  rw [broken, given, List.map_cons, List.cons_append, List.take_succ_cons, broken, given]
  congr 1
  rw [List.take_append, List.take_append, List.take_replicate, List.take_replicate]
  congr 2
  omega

/-- A run that breaks off is read up to a batch, and reported as truncated from there on. -/
theorem IsAt.exists_broken {batches : List Batch} {bodies : List Bytes}
    (hbodies : SpellsBatches capacity batches bodies)
    (h : r.IsAt path capacity cut) (hcut : bodies.flatten ++ terminator = cut ++ more)
    (hmore : more ≠ []) :
    ∃ front, front <+: batches ∧ ∀ calls, r.answers calls = broken path front calls := by
  induction hbodies generalizing r cut with
  | nil =>
    have hspells : Scan.SpellsBatch capacity none (cut ++ more) := hcut.symm
    exact ⟨[], List.prefix_rfl, h.answers_cut hspells hmore⟩
  | @cons batch body batches bodies hbatch _ ih =>
    rw [List.flatten_cons, List.append_assoc] at hcut
    -- The run breaks off inside the first batch or behind it.
    rcases cut_cases hcut with ⟨behind, rfl, hrest⟩ | ⟨lost, hlost, rfl⟩
    · obtain ⟨r', hnext, hr'⟩ := h.next_batch hbatch
      obtain ⟨front, hfront, hanswers⟩ := ih hr' hrest
      refine ⟨batch :: front, (List.prefix_cons_inj batch).mpr hfront, fun calls => ?_⟩
      cases calls with
      | zero => rfl
      | succ calls =>
        rw [answers, hnext, broken_cons]
        exact congrArg _ (hanswers calls)
    · exact ⟨[], List.nil_prefix, h.answers_cut hbatch hlost⟩

theorem IsAt.answers_whole {batches : List Batch} {bodies : List Bytes}
    (hbodies : SpellsBatches capacity batches bodies) (h : r.IsAt path capacity bodies.flatten)
    (calls : Nat) : r.answers calls = broken path batches calls := by
  rw [← List.append_nil bodies.flatten] at h
  obtain ⟨hafter, hanswers⟩ := h.answers_batches hbodies calls
  rw [← answers_take (Nat.le_add_left calls batches.length), hanswers, hafter.answers_nil, broken]

theorem ofContent_cut (path : String) (capacity : Nat) (h : header = cut ++ more)
    (hmore : more ≠ []) : ofContent path cut capacity = .error (.runFile path .truncated) := by
  have hperform := Scan.IsLocal.header.settles.perform_cut (a := ()) Scan.Parses.header h.symm hmore
    (Input.unread_ofContent cut)
  rw [ofContent, hperform]

/-- What can be made of a run that lacks some of its last bytes. -/
theorem ofContent_broken {batches : List Batch} {bodies : List Bytes}
    (hbodies : SpellsBatches capacity batches bodies) (path : String)
    (hcut : header ++ bodies.flatten ++ terminator = cut ++ more) (hmore : more ≠ []) :
    (cut.length < header.length →
        ofContent path cut capacity = .error (.runFile path .truncated)) ∧
      (header.length ≤ cut.length → ∃ r front, ofContent path cut capacity = .ok r ∧
        front <+: batches ∧ ∀ calls, r.answers calls = broken path front calls) := by
  rw [List.append_assoc] at hcut
  rcases cut_cases hcut with ⟨behind, rfl, hrest⟩ | ⟨lost, hlost, hheader⟩
  · refine ⟨fun hshort => ?_, fun _ => ?_⟩
    · rw [List.length_append] at hshort
      omega
    · obtain ⟨r, hr, hstart⟩ := isAt_of_header path capacity behind
      obtain ⟨front, hfront, hanswers⟩ := hstart.exists_broken hbodies hrest hmore
      exact ⟨r, front, hr, hfront, hanswers⟩
  · refine ⟨fun _ => ofContent_cut path capacity hheader hlost, fun hlong => ?_⟩
    have hlength := congrArg List.length hheader
    have hpos := List.length_pos_iff.mpr hlost
    rw [List.length_append] at hlength
    omega

end Reader

def filled (capacity : Nat) (batches : List Batch) : List Batch :=
  (batches.filter fun batch => !batch.isEmpty).map fun batch => ⟨capacity, batch.rows⟩

theorem filled_cons (capacity : Nat) (batch : Batch) (batches : List Batch) :
    filled capacity (batch :: batches) = filled capacity [batch] ++ filled capacity batches := by
  rw [filled, filled, filled, ← List.map_append, ← List.filter_append, List.singleton_append]

/-- What a batch adds to a run spells the page that it is read as, if it has rows. -/
theorem exists_filled {path : String} {batch : Batch} {bytes : Bytes} {capacity : Nat}
    (hfits : batch.length ≤ capacity) (h : encodeBatch path batch = .ok bytes) :
    ∃ bodies, Reader.SpellsBatches capacity (filled capacity [batch]) bodies ∧
      bodies.flatten = bytes := by
  by_cases hrows : batch.rows = []
  · have hnone : filled capacity [batch] = [] := by simp [filled, Batch.isEmpty, hrows]
    rw [encodeBatch_of_isEmpty hrows] at h
    rw [hnone]
    exact ⟨[], .nil, Except.ok.inj h⟩
  · have hone : filled capacity [batch] = [⟨capacity, batch.rows⟩] := by
      simp [filled, Batch.isEmpty, hrows]
    rw [hone]
    exact ⟨[bytes], .cons (spellsBatch_of_encodeBatch hrows hfits h) .nil, by simp⟩

namespace Session

variable {s : Session} {h : WriteHandle} {file : String} {bytes : Bytes} {capacity : Nat}
  {batches : List Batch}

def cut (s : Session) (file : String) (dropped : Nat) : Session :=
  match s.disk.fileAt? file with
  | some number => { s with disk := s.disk.truncate number dropped }
  | none => s

/-- Whether a run opens and is read as some batches, and then with errors of serialisation forever. -/
def BreaksOff (s : Session) (file : String) (capacity : Nat) (front : List Batch) : Prop :=
  (s.openRun file capacity).1 = .ok () ∧ ∃ e : Error, e.kind = .serialization ∧
    ∀ calls, (s.openRun file capacity).2.readEach calls =
      (Reader.given front ++ List.replicate calls (Except.error e)).take calls

/-- Batches that are accepted add the spellings of those that have rows. -/
theorem Writing.exists_bodies (hs : s.Writing h file bytes)
    (haccepted : ∀ answer ∈ (s.writeEach batches).1, answer = .ok ())
    (hfits : ∀ batch ∈ batches, batch.length ≤ capacity) :
    ∃ h' bodies, (s.writeEach batches).2.Writing h' file (bytes ++ bodies.flatten) ∧
      Reader.SpellsBatches capacity (filled capacity batches) bodies := by
  induction batches generalizing s h bytes with
  | nil => exact ⟨h, [], by simpa [Session.writeEach] using hs, .nil⟩
  | cons batch batches ih =>
    rw [List.forall_mem_cons] at hfits
    rw [Session.writeEach, hs.writer_eq] at haccepted ⊢
    cases hmore : encodeBatch h.writer.path batch with
    | error e =>
      obtain ⟨s', h', hrefused, -⟩ := hs.writeBatch_of_error hmore
      simp only [hrefused] at haccepted
      cases haccepted _ List.mem_cons_self
    | ok more =>
      obtain ⟨s₁, h₁, hwrite, -, hs₁⟩ := hs.writeBatch_of_encodeBatch hmore
      simp only [hwrite, List.forall_mem_cons] at haccepted ⊢
      obtain ⟨bodies₁, hbodies₁, rfl⟩ := exists_filled hfits.1 hmore
      obtain ⟨h₂, bodies₂, hs₂, hbodies₂⟩ := ih hs₁ haccepted.2 hfits.2
      refine ⟨h₂, bodies₁ ++ bodies₂, ?_, ?_⟩
      · rwa [List.flatten_append, ← List.append_assoc]
      · rw [filled_cons]
        exact List.rel_append hbodies₁ hbodies₂

theorem Writing.content_cut (hs : s.Writing h file bytes) (dropped : Nat) :
    (s.complete.cut file dropped).disk.fileAt? file = some h.file ∧
      (s.complete.cut file dropped).disk.content h.file =
        (bytes ++ terminator).take ((bytes ++ terminator).length - dropped) := by
  have hname : (h.finish s.disk).fileAt? file = some h.file :=
    (WriteHandle.fileAt?_finish file).trans hs.name_eq
  have hcut : (s.complete.cut file dropped).disk = (h.finish s.disk).truncate h.file dropped := by
    rw [hs.complete_eq, cut]
    simp only [hname]
  rw [hcut, Disk.truncate, Disk.fileAt?_setContent, hs.holds.finish,
    Disk.content_setContent hs.holds.file_lt_finish]
  exact ⟨hname, rfl⟩

/-- What becomes of a file that holds some first bytes of a run. -/
theorem openRun_broken {number : Nat} {bodies : List Bytes} {more : Bytes}
    (hbodies : Reader.SpellsBatches capacity batches bodies)
    (hname : s.disk.fileAt? file = some number)
    (hcut : header ++ bodies.flatten ++ terminator = s.disk.content number ++ more)
    (hmore : more ≠ []) :
    ((s.disk.content number).length < header.length →
        (s.openRun file capacity).1 = .error (.runFile (s.path file) .truncated)) ∧
      (header.length ≤ (s.disk.content number).length →
        ∃ front, front <+: batches ∧ s.BreaksOff file capacity front) := by
  obtain ⟨hshort, hlong⟩ := Reader.ofContent_broken hbodies (s.path file) hcut hmore
  refine ⟨fun hlt => openRun_of_error hname (hshort hlt), fun hle => ?_⟩
  obtain ⟨r, front, hr, hfront, hanswers⟩ := hlong hle
  obtain ⟨hopen, hread⟩ := readEach_openRun hname hr
  exact ⟨front, hfront, hopen, .runFile (s.path file) .truncated, rfl, fun calls =>
    (hread calls).trans (hanswers calls)⟩

/-- A run that lacks some of its last bytes is never read to an end. Where the header is not whole it is
not opened; otherwise a reader is given some of the first batches with rows, as they were, and errors
of serialisation from there on. So is one of a run whose writer was dropped, behind all batches. -/
theorem breaksOff_cut (s : Session) (file : String) (batches : List Batch) (capacity : Nat)
    (hcreate : (s.create file).1 = .ok ())
    (haccepted : ∀ answer ∈ ((s.create file).2.writeEach batches).1, answer = .ok ())
    (hfits : ∀ batch ∈ batches, batch.length ≤ capacity) :
    let written := ((s.create file).2.writeEach batches).2
    (∃ run, written.complete.disk.read? file = some run ∧ ∀ dropped, 0 < dropped →
      (written.complete.cut file dropped).disk.read? file =
          some (run.take (run.length - dropped)) ∧
        (run.length - dropped < 6 → ∃ e,
          ((written.complete.cut file dropped).openRun file capacity).1 = .error e ∧
            e.kind = .serialization) ∧
        (6 ≤ run.length - dropped → ∃ front, front <+: filled capacity batches ∧
          (written.complete.cut file dropped).BreaksOff file capacity front)) ∧
      written.dropWriter.BreaksOff file capacity (filled capacity batches) := by
  obtain ⟨h, hs⟩ := writing_create hcreate
  obtain ⟨h', bodies, hs', hbodies⟩ := hs.exists_bodies haccepted hfits
  intro written
  refine ⟨⟨header ++ bodies.flatten ++ terminator, ?_, fun dropped hdropped => ?_⟩, ?_⟩
  · have hname : (h'.finish written.disk).fileAt? file = some h'.file :=
      (WriteHandle.fileAt?_finish file).trans hs'.name_eq
    rw [hs'.complete_eq, Disk.read?, hname, Option.map_some, hs'.holds.finish]
  · obtain ⟨hname, hcontent⟩ := hs'.content_cut dropped
    have hlength : 0 < (header ++ bodies.flatten ++ terminator).length := by
      rw [List.length_append, List.length_append]
      exact Nat.lt_of_lt_of_le (by decide) (Nat.le_add_left terminator.length _)
    have hmore : (header ++ bodies.flatten ++ terminator).drop
        ((header ++ bodies.flatten ++ terminator).length - dropped) ≠ [] := by
      rw [← List.length_pos_iff, List.length_drop]
      omega
    obtain ⟨hshort, hlong⟩ := openRun_broken hbodies hname
      (by rw [hcontent, List.take_append_drop]) hmore
    have hleft : ((written.complete.cut file dropped).disk.content h'.file).length =
        (header ++ bodies.flatten ++ terminator).length - dropped := by
      rw [hcontent, List.length_take, Nat.min_eq_left (Nat.sub_le _ _)]
    rw [hleft] at hshort hlong
    refine ⟨by rw [Disk.read?, hname, Option.map_some, hcontent], fun hlt => ?_, hlong⟩
    exact ⟨_, hshort hlt, rfl⟩
  · have hdropped : written.dropWriter = { written with disk := h'.release written.disk, writer := none } := by
      rw [dropWriter, hs'.writer_eq]
    obtain ⟨r, hr, hstart⟩ := Reader.isAt_of_header (written.path file) capacity bodies.flatten
    rw [← hs'.holds.release] at hr
    rw [hdropped]
    obtain ⟨hopen, hread⟩ := readEach_openRun
      (s := { written with disk := h'.release written.disk, writer := none })
      ((WriteHandle.fileAt?_release file).trans hs'.name_eq) hr
    exact ⟨hopen, _, rfl, fun calls => (hread calls).trans (hstart.answers_whole hbodies calls)⟩

/-- Two batches with rows around one without. -/
def threeBatches : List Batch :=
  [⟨3, [[.int 7, .float ⟨0x8000000000000000⟩], [.string "é"]]⟩, ⟨4, []⟩, ⟨1, [[.null]]⟩]

/-- The writer of a file that has accepted these batches. -/
def writtenBatches : Session := (((start "dir").create "run").2.writeEach threeBatches).2

/-- Cut inside the last batch the run is read up to it at most, cut inside its header not at all. -/
theorem breaksOff_cut_threeBatches :
    (∃ front, front <+: filled 2 threeBatches ∧
      (writtenBatches.complete.cut "run" 5).BreaksOff "run" 2 front) ∧
    (∃ e, ((writtenBatches.complete.cut "run" 45).openRun "run" 2).1 = .error e ∧
      e.kind = .serialization) ∧
    writtenBatches.dropWriter.BreaksOff "run" 2 (filled 2 threeBatches) := by
  obtain ⟨⟨run, hrun, hcut⟩, hdropped⟩ := breaksOff_cut (start "dir") "run" threeBatches 2 (by rfl)
    (by decide) (by decide)
  have hlength : (writtenBatches.complete.disk.read? "run").map List.length = some 50 := by decide
  have hsize : run.length = 50 := by
    rw [show writtenBatches.complete.disk.read? "run" = some run from hrun] at hlength
    exact Option.some.inj hlength
  exact ⟨(hcut 5 (by decide)).2.2 (by omega), (hcut 45 (by decide)).2.1 (by omega), hdropped⟩

end Session

end RunFile
end PagedQuery
