import PagedQuery.Proofs.RunGrammar

/-!
# What a reader makes of a file

A reader is called again and again; `Reader.answers` lists what the calls give. A file is read as
some batches and their end exactly if it is the header, the bytes of these batches one after the
other, and the terminator, with anything behind it. All other files end in an error of
serialisation, and no file keeps a reader busy for longer than it has bytes.
-/

namespace PagedQuery
namespace RunFile
namespace Reader

def answers : Nat → Reader → List (Except Error (Option Batch))
  | 0, _ => []
  | calls + 1, r => r.next.1 :: answers calls r.next.2

def after : Nat → Reader → Reader
  | 0, r => r
  | calls + 1, r => after calls r.next.2

def given (batches : List Batch) : List (Except Error (Option Batch)) :=
  batches.map fun batch => .ok (some batch)

/-- Whether the reader is before its terminator, with these bytes unread. -/
structure IsAt (r : Reader) (path : String) (capacity : Nat) (unread : Bytes) : Prop where
  path_eq : r.path = path
  capacity_eq : r.capacity = capacity
  isDone_eq : r.isDone = false
  unread_eq : r.input.unread = unread

variable {r r' : Reader} {path : String} {capacity : Nat} {bytes rest unread : Bytes}

theorem next_of_isDone (h : r.isDone = true) : r.next = (.ok none, r) := by
  rw [next, if_pos h]

theorem answers_of_isDone (h : r.isDone = true) (calls : Nat) :
    r.answers calls = List.replicate calls (.ok none) := by
  induction calls with
  | zero => rfl
  | succ calls ih => rw [answers, next_of_isDone h, ih, List.replicate_succ]

theorem IsAt.next_batch {batch : Batch} (h : r.IsAt path capacity (bytes ++ rest))
    (hbatch : Scan.SpellsBatch capacity (some batch) bytes) :
    ∃ r', r.next = (.ok (some batch), r') ∧ r'.IsAt path capacity rest := by
  obtain ⟨input, hperform, hrest⟩ := (Scan.Parses.batch? capacity).complete hbatch h.unread_eq
  refine ⟨{ r with input }, ?_, h.path_eq, h.capacity_eq, h.isDone_eq, hrest⟩
  rw [next, if_neg (by simp [h.isDone_eq]), h.capacity_eq, hperform]

theorem IsAt.next_end (h : r.IsAt path capacity (terminator ++ rest)) :
    ∃ r', r.next = (.ok none, r') ∧ r'.isDone = true ∧ r'.input.unread = rest := by
  obtain ⟨input, hperform, hrest⟩ :=
    (Scan.Parses.batch? capacity).complete (a := none) rfl h.unread_eq
  refine ⟨{ r with input, isDone := true }, ?_, rfl, hrest⟩
  rw [next, if_neg (by simp [h.isDone_eq]), h.capacity_eq, hperform]

theorem IsAt.of_next_batch {batch : Batch} (h : r.IsAt path capacity unread)
    (hnext : r.next = (.ok (some batch), r')) :
    ∃ bytes rest, Scan.SpellsBatch capacity (some batch) bytes ∧ unread = bytes ++ rest ∧
      r'.IsAt path capacity rest := by
  rw [next, if_neg (by simp [h.isDone_eq]), h.capacity_eq] at hnext
  rcases hperform : (Scan.batch? capacity).perform r.input with ⟨answer, input⟩
  rw [hperform] at hnext
  rcases answer with fault | _ | read
  · cases (Prod.mk.inj hnext).1
  · cases (Prod.mk.inj hnext).1
  · obtain ⟨hread, rfl⟩ := Prod.mk.inj hnext
    obtain rfl : read = batch := Option.some.inj (Except.ok.inj hread)
    obtain ⟨bytes, hbytes, hunread⟩ := (Scan.Parses.batch? capacity).sound hperform
    rw [h.unread_eq] at hunread
    exact ⟨bytes, _, hbytes, hunread, h.path_eq, rfl, h.isDone_eq, rfl⟩

theorem IsAt.of_next_end (h : r.IsAt path capacity unread) (hnext : r.next = (.ok none, r')) :
    r'.isDone = true ∧ unread = terminator ++ r'.input.unread := by
  rw [next, if_neg (by simp [h.isDone_eq]), h.capacity_eq] at hnext
  rcases hperform : (Scan.batch? capacity).perform r.input with ⟨answer, input⟩
  rw [hperform] at hnext
  rcases answer with fault | _ | read
  · cases (Prod.mk.inj hnext).1
  · obtain ⟨-, rfl⟩ := Prod.mk.inj hnext
    obtain ⟨bytes, rfl, hunread⟩ := (Scan.Parses.batch? capacity).sound hperform
    rw [h.unread_eq] at hunread
    exact ⟨rfl, hunread⟩
  · cases (Prod.mk.inj hnext).1

theorem next_rest_suffix (r : Reader) : r.next.2.input.rest <:+ r.input.rest := by
  have h := (Scan.Parses.batch? r.capacity).advances r.input
  by_cases hdone : r.isDone = true
  · have hsame : r.next.2.input.rest = r.input.rest := by rw [next, if_pos hdone]
    exact hsame ▸ List.suffix_rfl
  · rw [next, if_neg hdone]
    rcases hperform : (Scan.batch? r.capacity).perform r.input with ⟨fault | _ | read, input⟩ <;>
      rw [hperform] at h <;> exact h

theorem kind_of_next_error {e : Error} (h : r.next.1 = .error e) : e.kind = .serialization := by
  rw [next] at h
  by_cases hdone : r.isDone = true
  · rw [if_pos hdone] at h
    cases h
  · rw [if_neg hdone] at h
    rcases hperform : (Scan.batch? r.capacity).perform r.input with ⟨answer, input⟩
    rw [hperform] at h
    rcases answer with fault | _ | read
    · obtain rfl := Except.error.inj h
      rfl
    · cases h
    · cases h

/-- The spellings of some batches in a row. -/
def SpellsBatches (capacity : Nat) (batches : List Batch) (bodies : List Bytes) : Prop :=
  List.Forall₂ (fun batch body => Scan.SpellsBatch capacity (some batch) body) batches bodies

theorem IsAt.answers_batches {batches : List Batch} {bodies : List Bytes}
    (hbodies : SpellsBatches capacity batches bodies)
    (h : r.IsAt path capacity (bodies.flatten ++ rest)) (calls : Nat) :
    (r.after batches.length).IsAt path capacity rest ∧
      r.answers (batches.length + calls) =
        given batches ++ (r.after batches.length).answers calls := by
  induction hbodies generalizing r with
  | nil => exact ⟨h, by simp [given, after]⟩
  | cons hbatch _ ih =>
    rw [List.flatten_cons, List.append_assoc] at h
    obtain ⟨r', hnext, hr'⟩ := h.next_batch hbatch
    obtain ⟨hafter, hanswers⟩ := ih hr'
    rw [List.length_cons, after, hnext]
    refine ⟨hafter, ?_⟩
    rw [show ∀ n, n + 1 + calls = n + calls + 1 from fun n => by omega, answers, hnext, hanswers]
    rfl

theorem IsAt.of_answers_batches {batches : List Batch} {calls : Nat}
    {others : List (Except Error (Option Batch))} (h : r.IsAt path capacity unread)
    (hanswers : r.answers (batches.length + calls) = given batches ++ others) :
    ∃ bodies rest, SpellsBatches capacity batches bodies ∧ unread = bodies.flatten ++ rest ∧
      (r.after batches.length).IsAt path capacity rest ∧
      (r.after batches.length).answers calls = others := by
  induction batches generalizing r unread with
  | nil => exact ⟨[], unread, .nil, rfl, h, by simpa [given, after] using hanswers⟩
  | cons batch batches ih =>
    rw [List.length_cons, show ∀ n, n + 1 + calls = n + calls + 1 from fun n => by omega,
      answers] at hanswers
    obtain ⟨hfirst, hothers⟩ := List.cons.inj hanswers
    rcases hnext : r.next with ⟨answer, r'⟩
    rw [hnext] at hfirst hothers
    obtain rfl : answer = .ok (some batch) := hfirst
    obtain ⟨bytes, rest, hbatch, rfl, hr'⟩ := h.of_next_batch hnext
    obtain ⟨bodies, rest, hbodies, rfl, hafter, hcalls⟩ := ih hr' hothers
    rw [List.length_cons, after, hnext]
    exact ⟨bytes :: bodies, rest, .cons hbatch hbodies, by simp, hafter, hcalls⟩

theorem length_pos_of_spellsBatch {batch : Batch}
    (h : Scan.SpellsBatch capacity (some batch) bytes) : 0 < bytes.length := by
  obtain ⟨-, hrows, -, hbytes⟩ := h
  obtain ⟨-, pieces, -, rfl⟩ := (encodeBatch_eq_ok_iff hrows).mp (hbytes "")
  rw [List.length_append, length_littleEndian]
  omega

/-- Reading comes to an end or to an error, after no more batches than there are bytes. -/
theorem IsAt.exists_answers (h : r.IsAt path capacity unread) :
    ∃ batches ending, batches.length ≤ unread.length ∧
      r.answers (batches.length + 1) = given batches ++ [ending] ∧
      (ending = .ok none ∨ ∃ e, ending = .error e ∧ e.kind = .serialization) := by
  -- Every batch takes bytes off what is unread, so there is an answer that is none.
  induction hn : unread.length using Nat.strongRecOn generalizing r unread with
  | ind n ih =>
    subst hn
    rcases hnext : r.next with ⟨e | _ | batch, r'⟩
    · have hkind : e.kind = .serialization := kind_of_next_error (by rw [hnext])
      exact ⟨[], .error e, Nat.zero_le _, by simp [answers, hnext, given], .inr ⟨e, rfl, hkind⟩⟩
    · exact ⟨[], .ok none, Nat.zero_le _, by simp [answers, hnext, given], .inl rfl⟩
    · obtain ⟨bytes, rest, hbatch, rfl, hr'⟩ := h.of_next_batch hnext
      have hpos := length_pos_of_spellsBatch hbatch
      have hlength : (bytes ++ rest).length = bytes.length + rest.length := List.length_append
      obtain ⟨batches, ending, hle, hanswers, hending⟩ := ih rest.length (by omega) hr' rfl
      refine ⟨batch :: batches, ending, ?_, ?_, hending⟩
      · rw [List.length_cons]
        omega
      · rw [List.length_cons, answers, hnext, hanswers]
        rfl

/-- A batch that a reader hands out is what the writer has written for it. -/
theorem spellsBatches_iff (path : String) {batches : List Batch} {bodies : List Bytes} :
    SpellsBatches capacity batches bodies ↔
      (∀ batch ∈ batches, batch.capacity = capacity ∧ 1 ≤ batch.length ∧ batch.length ≤ capacity) ∧
        batches.mapM (encodeBatch path) = .ok bodies := by
  rw [mapM_eq_ok_iff]
  constructor
  · intro h
    induction h with
    | nil => exact ⟨by simp, .nil⟩
    | cons hbatch _ ih =>
      obtain ⟨hcapacity, hrows, hle, hbytes⟩ := hbatch
      refine ⟨?_, .cons (hbytes path) ih.2⟩
      rw [List.forall_mem_cons]
      exact ⟨⟨hcapacity, List.length_pos_iff.mpr hrows, hle⟩, ih.1⟩
  · rintro ⟨hbatches, hbodies⟩
    induction hbodies with
    | nil => exact .nil
    | cons hbody _ ih =>
      rw [List.forall_mem_cons] at hbatches
      obtain ⟨⟨hcapacity, hpos, hle⟩, hbatches⟩ := hbatches
      have hrows := List.length_pos_iff.mp hpos
      refine .cons ⟨hcapacity, hrows, hle, fun path' => ?_⟩ (ih hbatches)
      exact (encodeBatch_eq_ok_iff hrows).mpr ((encodeBatch_eq_ok_iff hrows).mp hbody)

variable {content : Bytes}

theorem isAt_of_header (path : String) (capacity : Nat) (rest : Bytes) :
    ∃ r, ofContent path (header ++ rest) capacity = .ok r ∧ r.IsAt path capacity rest := by
  have hunread : (Input.ofContent (header ++ rest)).unread = header ++ rest := rfl
  obtain ⟨input, hperform, hrest⟩ := Scan.Parses.header.complete (a := ()) rfl hunread
  exact ⟨⟨path, input, capacity, false⟩, by rw [ofContent, hperform], rfl, rfl, rfl, hrest⟩

theorem header_of_ofContent (h : ofContent path content capacity = .ok r) :
    ∃ rest, content = header ++ rest ∧ r.IsAt path capacity rest := by
  rw [ofContent] at h
  rcases hperform : Scan.header.perform (.ofContent content) with ⟨fault | _, input⟩
  · rw [hperform] at h
    cases h
  · rw [hperform] at h
    obtain rfl := Except.ok.inj h
    obtain ⟨bytes, rfl, hunread⟩ := Scan.Parses.header.sound hperform
    exact ⟨_, hunread, rfl, rfl, rfl, rfl⟩

theorem rest_suffix_of_ofContent (h : ofContent path content capacity = .ok r) :
    r.input.rest <:+ content := by
  have hadvances := Scan.Parses.header.advances (.ofContent content)
  rw [ofContent] at h
  rcases hperform : Scan.header.perform (.ofContent content) with ⟨fault | _, input⟩
  · rw [hperform] at h
    cases h
  · rw [hperform] at h hadvances
    obtain rfl := Except.ok.inj h
    exact hadvances

theorem kind_of_ofContent_error {e : Error} (h : ofContent path content capacity = .error e) :
    e.kind = .serialization := by
  rw [ofContent] at h
  rcases hperform : Scan.header.perform (.ofContent content) with ⟨fault | _, input⟩
  · rw [hperform] at h
    obtain rfl := Except.error.inj h
    rfl
  · rw [hperform] at h
    cases h

theorem answers_take {calls all : Nat} (h : calls ≤ all) (r : Reader) :
    (r.answers all).take calls = r.answers calls := by
  induction calls generalizing r all with
  | zero => rw [List.take_zero, answers]
  | succ calls ih =>
    obtain ⟨all, rfl⟩ := Nat.exists_eq_add_of_le' h
    rw [← Nat.add_assoc, answers, List.take_succ_cons, ih (by omega), answers]

/-- A run is read batch by batch, and then as ended. -/
theorem exists_answers_of_spellsBatches {batches : List Batch} {bodies : List Bytes}
    (hbodies : SpellsBatches capacity batches bodies) (path : String) :
    ∃ r, ofContent path (header ++ bodies.flatten ++ terminator) capacity = .ok r ∧
      ∀ calls, r.answers calls =
        (given batches ++ List.replicate calls (Except.ok none)).take calls := by
  obtain ⟨r, hr, hstart⟩ := isAt_of_header path capacity (bodies.flatten ++ terminator)
  rw [List.append_assoc]
  refine ⟨r, hr, fun calls => ?_⟩
  obtain ⟨hafter, hanswers⟩ := hstart.answers_batches hbodies (calls + 1)
  rw [← List.append_nil terminator] at hafter
  obtain ⟨last, hnext, hdone, -⟩ := hafter.next_end
  have hend : (r.after batches.length).answers (calls + 1) =
      List.replicate (calls + 1) (.ok none) := by
    rw [answers, hnext, List.replicate_succ]
    exact congrArg _ (answers_of_isDone hdone calls)
  rw [← answers_take (show calls ≤ batches.length + (calls + 1) by omega), hanswers, hend]
  rw [List.take_append, List.take_append, List.take_replicate, List.take_replicate]
  congr 2
  omega

/-- Whether opening the content gives a reader that hands out some batches and then the end, which
leaves some bytes unread. -/
def ReadsAs (path : String) (content : Bytes) (capacity : Nat) (batches : List Batch)
    (unread : Bytes) : Prop :=
  ∃ r, ofContent path content capacity = .ok r ∧
    r.answers (batches.length + 1) = given batches ++ [.ok none] ∧
    (r.after (batches.length + 1)).input.unread = unread

theorem after_add (r : Reader) (calls more : Nat) :
    r.after (calls + more) = (r.after calls).after more := by
  induction calls generalizing r with
  | zero => rw [Nat.zero_add, after]
  | succ calls ih => rw [Nat.succ_add, after, after, ih]

/-- A file is read as some batches exactly if it is their bytes between a header and a terminator,
and what stands behind the terminator is left unread. -/
theorem readsAs_iff {batches : List Batch} :
    ReadsAs path content capacity batches unread ↔
      ∃ bodies, SpellsBatches capacity batches bodies ∧
        content = header ++ bodies.flatten ++ terminator ++ unread := by
  constructor
  · rintro ⟨r, hr, hanswers, hunread⟩
    obtain ⟨rest, rfl, hstart⟩ := header_of_ofContent hr
    obtain ⟨bodies, rest, hbodies, rfl, hafter, hend⟩ := hstart.of_answers_batches hanswers
    rcases hnext : (r.after batches.length).next with ⟨answer, last⟩
    rw [after_add, after, after, hnext] at hunread
    rw [answers, hnext] at hend
    obtain rfl : answer = .ok none := (List.cons.inj hend).1
    obtain ⟨-, rfl⟩ := hafter.of_next_end hnext
    exact ⟨bodies, hbodies, by simp [← hunread]⟩
  · rintro ⟨bodies, hbodies, rfl⟩
    rw [List.append_assoc, List.append_assoc]
    obtain ⟨r, hr, hstart⟩ := isAt_of_header path capacity _
    obtain ⟨hafter, hanswers⟩ := hstart.answers_batches hbodies 1
    obtain ⟨last, hnext, -, hunread⟩ := hafter.next_end
    refine ⟨r, hr, ?_, ?_⟩
    · rw [hanswers, answers, hnext]
      rfl
    · rw [after_add, after, after, hnext]
      exact hunread

/-- The language of the reader. It accepts the header, the bytes of batches that fit its pages, and
the terminator, and leaves what stands behind; encoding what was read gives back what was consumed,
so that nothing but the bytes left unread sets apart two files that read alike. Every other file
ends, after no more batches than it has bytes, in an error of serialisation. -/
theorem reads_exactly_runs (path : String) (content : Bytes) (capacity : Nat) :
    (∀ batches unread, ReadsAs path content capacity batches unread ↔
      (∀ batch ∈ batches, batch.capacity = capacity ∧ 1 ≤ batch.length ∧ batch.length ≤ capacity) ∧
        ∃ bodies, batches.mapM (encodeBatch path) = .ok bodies ∧
          content = magic ++ littleEndian 2 1 ++ bodies.flatten ++ littleEndian 4 0 ++ unread) ∧
    (∀ batches unread, ReadsAs path content capacity batches unread →
      ∃ run, encode path batches = .ok run ∧ content = run ++ unread) ∧
    (∀ path' content' batches, ReadsAs path content capacity batches [] →
      ReadsAs path' content' capacity batches [] → content = content') ∧
    ((∃ batches unread, batches.length ≤ content.length ∧
        ReadsAs path content capacity batches unread) ∨
      (∃ e, ofContent path content capacity = .error e ∧ e.kind = .serialization) ∨
      ∃ r batches e, ofContent path content capacity = .ok r ∧ batches.length ≤ content.length ∧
        r.answers (batches.length + 1) = given batches ++ [.error e] ∧
        e.kind = .serialization) := by
  refine ⟨?_, ?_, ?_, ?_⟩
  · intro batches unread
    rw [readsAs_iff]
    constructor
    · rintro ⟨bodies, hbodies, hcontent⟩
      obtain ⟨hbatches, hencode⟩ := (spellsBatches_iff path).mp hbodies
      exact ⟨hbatches, bodies, hencode, hcontent⟩
    · rintro ⟨hbatches, bodies, hencode, hcontent⟩
      exact ⟨bodies, (spellsBatches_iff path).mpr ⟨hbatches, hencode⟩, hcontent⟩
  · intro batches unread h
    obtain ⟨bodies, hbodies, hcontent⟩ := readsAs_iff.mp h
    refine ⟨header ++ bodies.flatten ++ terminator, ?_, hcontent⟩
    rw [encode, ((spellsBatches_iff path).mp hbodies).2]
    rfl
  · intro path' content' batches h h'
    obtain ⟨bodies, hbodies, rfl⟩ := readsAs_iff.mp h
    obtain ⟨bodies', hbodies', rfl⟩ := readsAs_iff.mp h'
    have hencode := ((spellsBatches_iff path).mp hbodies).2
    rw [((spellsBatches_iff path).mp hbodies').2] at hencode
    obtain rfl := Except.ok.inj hencode
    rfl
  · cases hopen : ofContent path content capacity with
    | error e => exact .inr (.inl ⟨e, rfl, kind_of_ofContent_error hopen⟩)
    | ok r =>
      obtain ⟨rest, rfl, hstart⟩ := header_of_ofContent hopen
      obtain ⟨batches, ending, hle, hanswers, rfl | ⟨e, rfl, hkind⟩⟩ := hstart.exists_answers
      · refine .inl ⟨batches, _, ?_, r, hopen, hanswers, rfl⟩
        rw [List.length_append]
        omega
      · refine .inr (.inr ⟨r, batches, e, rfl, ?_, hanswers, hkind⟩)
        rw [List.length_append]
        omega

/-- A file with a batch of two rows, and a byte behind its terminator. -/
theorem reads_two_rows :
    ReadsAs "run" ([0x52, 0x55, 0x4e, 0x46, 1, 0] ++ [2, 0, 0, 0] ++ [1, 0, 0] ++
      [1, 0, 3, 2, 0, 0, 0, 0xc3, 0xa9] ++ [0, 0, 0, 0] ++ [7]) 3
      [⟨3, [[.null], [.string "é"]]⟩] [7] :=
  ((reads_exactly_runs _ _ _).1 _ _).mpr ⟨by decide, _, rfl, rfl⟩

end Reader
end RunFile
end PagedQuery
