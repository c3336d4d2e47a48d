import PagedQuery.Proofs.CutRuns

/-!
# Reading on behind a failure

A call that fails leaves the reader behind the bytes that it has taken, and the next call looks
for a batch there. So a file is taken in pieces, each of which is a batch or has something wrong
in it, until the terminator turns up or the file runs out; only there do the answers stay the
same. The end of the run is reported behind a failure just as behind a batch.
-/

namespace PagedQuery

variable {α : Type}

namespace Scan

variable {x : Scan α}

/-- Whether nothing can be made of these bytes, if the file ends with them. -/
def RunsOut (x : Scan α) (bytes : Bytes) : Prop :=
  ∀ input : Input, input.unread = bytes → x.perform input = (.error .truncated, ⟨[], []⟩)

/-- A local scan runs out of bytes, or some first bytes say how it ends. -/
theorem IsLocal.runsOut_or_endsAfter (h : IsLocal x) (bytes : Bytes) :
    x.RunsOut bytes ∨ ∃ taken rest answer, bytes = taken ++ rest ∧ answer ≠ .error .truncated ∧
      x.EndsAfter taken answer := by
  rcases h (.ofContent bytes) with hout | ⟨taken, rest, hbytes, hanswer, hends⟩
  · refine .inl fun input hinput => ?_
    rcases h input with hout' | ⟨taken, rest, hunread, hanswer, hends⟩
    · exact hout'
    · obtain ⟨hsame, -⟩ := hends (.ofContent bytes) rest (hinput.symm.trans hunread)
      rw [hout] at hsame
      exact absurd hsame.symm hanswer
  · exact .inr ⟨taken, rest, _, hbytes, hanswer, hends⟩

/-- The bytes behind which a scan has an answer are the spellings of this answer. -/
theorem Parses.endsAfter_ok_iff {spells : α → Bytes → Prop} (h : Parses x spells) {a : α}
    {bytes : Bytes} : x.EndsAfter bytes (.ok a) ↔ spells a bytes := by
  constructor
  · intro hends
    obtain ⟨hanswer, hrest⟩ := hends (.ofContent bytes) [] (List.append_nil bytes).symm
    obtain ⟨spelling, ha, hbytes⟩ := h.sound (Prod.ext hanswer rfl)
    rw [hrest, List.append_nil] at hbytes
    obtain rfl : bytes = spelling := hbytes
    exact ha
  · intro ha input rest hinput
    obtain ⟨input', hperform, hrest⟩ := h.complete ha hinput
    rw [hperform]
    exact ⟨rfl, hrest⟩

end Scan

namespace RunFile
namespace Reader

variable {r r' : Reader} {path : String} {capacity : Nat} {content bytes rest unread tail : Bytes}
  {outcome : Except RunFault Batch} {outcomes : List (Except RunFault Batch)} {pieces : List Bytes}
  {last : Except Error (Option Batch)}

/-- Whether a call takes these bytes wherever they are in front, and finds a batch or a fault in
them. -/
def IsPiece (capacity : Nat) (outcome : Except RunFault Batch) (bytes : Bytes) : Prop :=
  outcome ≠ .error .truncated ∧
    (Scan.batch? capacity).EndsAfter bytes (outcome.map some)

/-- What a call says about a piece. -/
def reported (path : String) : Except RunFault Batch → Except Error (Option Batch)
  | .ok batch => .ok (some batch)
  | .error fault => .error (.runFile path fault)

/-- What every call says from some bytes on: that the run has ended, from a terminator on, or that
it was cut off, where nothing more can be made of what is left. -/
inductive IsLast (path : String) (capacity : Nat) : Bytes → Except Error (Option Batch) → Prop
  | ended (unread : Bytes) : IsLast path capacity (terminator ++ unread) (.ok none)
  | cut {tail : Bytes} (h : (Scan.batch? capacity).RunsOut tail) :
    IsLast path capacity tail (.error (.runFile path .truncated))

theorem isPiece_ok_iff {batch : Batch} :
    IsPiece capacity (.ok batch) bytes ↔ Scan.SpellsBatch capacity (some batch) bytes := by
  rw [← (Scan.Parses.batch? capacity).endsAfter_ok_iff]
  exact ⟨And.right, fun h => ⟨nofun, h⟩⟩

theorem IsPiece.length_pos (h : IsPiece capacity outcome bytes) : 0 < bytes.length := by
  rw [List.length_pos_iff]
  rintro rfl
  obtain ⟨hanswer, -⟩ := h.2 (.ofContent []) [] rfl
  have hout : ((Scan.batch? capacity).perform (.ofContent [])).1 = .error .truncated := rfl
  rw [hout] at hanswer
  rcases outcome with fault | batch
  · exact h.1 (congrArg _ (Except.error.inj hanswer).symm)
  · cases hanswer

/-- The row count of a batch that is too long for a page is a piece of its own. -/
theorem isPiece_of_capacity_lt {count : Nat} (hlong : capacity < count)
    (hcount : count < 0x100000000) :
    IsPiece capacity (.error (.batchExceedsPage count capacity)) (littleEndian 4 count) := by
  have hnumber : (Scan.number 4).EndsAfter (littleEndian 4 count) (.ok count) :=
    (Scan.Parses.number 4).endsAfter_ok_iff.mpr ⟨rfl, hcount⟩
  refine ⟨nofun, ?_⟩
  rw [← List.append_nil (littleEndian 4 count)]
  refine hnumber.bind ?_
  rw [if_neg (by omega), if_pos hlong]
  exact Scan.EndsAfter.throw _

theorem IsAt.next_piece (h : r.IsAt path capacity (bytes ++ rest))
    (hpiece : IsPiece capacity outcome bytes) :
    ∃ r', r.next = (reported path outcome, r') ∧ r'.IsAt path capacity rest := by
  obtain ⟨hanswer, hrest⟩ := hpiece.2 r.input rest h.unread_eq
  rcases hperform : (Scan.batch? capacity).perform r.input with ⟨answer, input⟩
  rw [hperform] at hanswer hrest
  obtain rfl : answer = outcome.map some := hanswer
  refine ⟨{ r with input }, ?_, h.path_eq, h.capacity_eq, h.isDone_eq, hrest⟩
  rw [next, if_neg (by simp [h.isDone_eq]), h.capacity_eq, hperform, ← h.path_eq]
  cases outcome <;> rfl

theorem IsAt.answers_last (h : r.IsAt path capacity tail) (hlast : IsLast path capacity tail last)
    (calls : Nat) : r.answers calls = List.replicate calls last := by
  cases calls with
  | zero => rfl
  | succ calls =>
    cases hlast with
    | ended unread =>
      obtain ⟨r', hnext, hdone, -⟩ := h.next_end
      rw [answers, hnext, List.replicate_succ]
      exact congrArg _ (answers_of_isDone hdone calls)
    | cut hout =>
      have hnext : r.next = (.error (.runFile path .truncated), { r with input := ⟨[], []⟩ }) := by
        rw [next, if_neg (by simp [h.isDone_eq]), h.capacity_eq, hout r.input h.unread_eq,
          h.path_eq]
      have hr' : ({ r with input := ⟨[], []⟩ } : Reader).IsAt path capacity [] :=
        ⟨h.path_eq, h.capacity_eq, h.isDone_eq, rfl⟩
      rw [answers, hnext, List.replicate_succ]
      exact congrArg _ (hr'.answers_nil calls)

/-- Pieces are taken one by one, whatever was found in those before. -/
theorem IsAt.answers_pieces (hpieces : List.Forall₂ (IsPiece capacity) outcomes pieces)
    (h : r.IsAt path capacity (pieces.flatten ++ tail)) (hlast : IsLast path capacity tail last)
    (calls : Nat) :
    r.answers (outcomes.length + calls) =
      outcomes.map (reported path) ++ List.replicate calls last := by
  induction hpieces generalizing r with
  | nil => simpa using h.answers_last hlast calls
  | cons hpiece _ ih =>
    rw [List.flatten_cons, List.append_assoc] at h
    obtain ⟨r', hnext, hr'⟩ := h.next_piece hpiece
    rw [List.length_cons, Nat.add_right_comm, answers, hnext, ih hr']
    rfl

/-- What stands behind a header is pieces, and then a terminator or too few bytes for anything. -/
theorem exists_pieces (path : String) (capacity : Nat) (unread : Bytes) :
    ∃ outcomes pieces tail last, List.Forall₂ (IsPiece capacity) outcomes pieces ∧
      unread = pieces.flatten ++ tail ∧ IsLast path capacity tail last := by
  -- Every piece takes bytes off what is left.
  induction hn : unread.length using Nat.strongRecOn generalizing unread with
  | ind n ih =>
    subst hn
    rcases (Scan.IsLocal.batch? capacity).runsOut_or_endsAfter unread with
      hout | ⟨taken, rest, answer, rfl, hanswer, hends⟩
    · exact ⟨[], [], unread, _, .nil, rfl, .cut hout⟩
    -- What one piece leaves is taken in pieces in turn.
    have behind : ∀ outcome, IsPiece capacity outcome taken →
        ∃ outcomes pieces tail last, List.Forall₂ (IsPiece capacity) outcomes pieces ∧
          taken ++ rest = pieces.flatten ++ tail ∧ IsLast path capacity tail last := by
      intro outcome hpiece
      have hlength : (taken ++ rest).length = taken.length + rest.length := List.length_append
      have hpos := hpiece.length_pos
      obtain ⟨outcomes, pieces, tail, last, hpieces, rfl, hlast⟩ :=
        ih rest.length (by omega) rest rfl
      exact ⟨outcome :: outcomes, taken :: pieces, tail, last, .cons hpiece hpieces,
        by rw [List.flatten_cons, List.append_assoc], hlast⟩
    rcases answer with fault | _ | batch
    · exact behind (.error fault) ⟨fun h => hanswer (congrArg _ (Except.error.inj h)), hends⟩
    · obtain rfl : taken = terminator := (Scan.Parses.batch? capacity).endsAfter_ok_iff.mp hends
      exact ⟨[], [], terminator ++ rest, _, .nil, rfl, .ended rest⟩
    · exact behind (.ok batch) ⟨nofun, hends⟩

theorem exists_run_of_isPiece {batches : List Batch} (path : String)
    (hpieces : List.Forall₂ (IsPiece capacity) (batches.map Except.ok) pieces) :
    encode path batches = .ok (header ++ pieces.flatten ++ terminator) := by
  rw [List.forall₂_map_left_iff] at hpieces
  have hbodies : SpellsBatches capacity batches pieces :=
    hpieces.imp fun _ _ h => isPiece_ok_iff.mp h
  rw [encode, ((spellsBatches_iff path).mp hbodies).2]
  rfl

/-- A file that is a header, pieces and an end answers with what is in the pieces and then with the
end, as often as it is asked. -/
theorem exists_answers_of_pieces (hpieces : List.Forall₂ (IsPiece capacity) outcomes pieces)
    (hlast : IsLast path capacity tail last) :
    ∃ r, ofContent path (header ++ pieces.flatten ++ tail) capacity = .ok r ∧
      ∀ calls, r.answers calls =
        (outcomes.map (reported path) ++ List.replicate calls last).take calls := by
  rw [List.append_assoc]
  obtain ⟨r, hr, hstart⟩ := isAt_of_header path capacity (pieces.flatten ++ tail)
  refine ⟨r, hr, fun calls => ?_⟩
  rw [← answers_take (Nat.le_add_left calls outcomes.length), hstart.answers_pieces hpieces hlast]

/-- What the calls on an opened file give, however many there are. The file is a header, pieces,
and a terminator or too few bytes for anything; the calls say what is in the pieces and then
forever that the run has ended or was cut off. If there was a batch in every piece and the run has
ended, then the batches and the terminator are a run. But an end may as well follow pieces that had
something wrong in them: with a terminator behind any of the pieces, the file answers up to there
as it does, and then that it ends. -/
theorem reads_on_behind_failures (hopen : ofContent path content capacity = .ok r) :
    ∃ outcomes pieces tail last, List.Forall₂ (IsPiece capacity) outcomes pieces ∧
      content = header ++ pieces.flatten ++ tail ∧ IsLast path capacity tail last ∧
      (∀ calls, r.answers calls =
        (outcomes.map (reported path) ++ List.replicate calls last).take calls) ∧
      (∀ batches, outcomes = batches.map Except.ok → last = .ok none → ∃ run unread,
        encode path batches = .ok run ∧ content = run ++ unread ∧ tail = terminator ++ unread) ∧
      ∀ count unread, ∃ r', ofContent path
          (header ++ (pieces.take count).flatten ++ (terminator ++ unread)) capacity = .ok r' ∧
        ∀ calls, r'.answers calls = ((outcomes.take count).map (reported path) ++
          List.replicate calls (Except.ok none)).take calls := by
  obtain ⟨rest, rfl, -⟩ := header_of_ofContent hopen
  obtain ⟨outcomes, pieces, tail, last, hpieces, rfl, hlast⟩ := exists_pieces path capacity rest
  obtain ⟨opened, hopened, hanswers⟩ := exists_answers_of_pieces hpieces hlast
  rw [← List.append_assoc] at hopen ⊢
  obtain rfl : opened = r := Except.ok.inj (hopened.symm.trans hopen)
  refine ⟨outcomes, pieces, tail, last, hpieces, rfl, hlast, hanswers, ?_, fun count unread => ?_⟩
  · rintro batches rfl rfl
    obtain ⟨unread⟩ := hlast
    exact ⟨_, unread, exists_run_of_isPiece path hpieces, (List.append_assoc ..).symm, rfl⟩
  · exact exists_answers_of_pieces (List.forall₂_take count hpieces) (.ended unread)

/-- A batch of two rows without fields, in the run that the writer makes of it. -/
def emptyRowsRun : Bytes :=
  [0x52, 0x55, 0x4e, 0x46, 1, 0] ++ [2, 0, 0, 0] ++ [0, 0] ++ [0, 0] ++ [0, 0, 0, 0]

theorem reads_on_behind_failures_emptyRowsRun :
    ∃ r, ofContent "run" emptyRowsRun 1 = .ok r ∧ ∃ outcomes pieces tail last,
      List.Forall₂ (IsPiece 1) outcomes pieces ∧
      emptyRowsRun = header ++ pieces.flatten ++ tail ∧ IsLast "run" 1 tail last ∧
      ∀ calls, r.answers calls =
        (outcomes.map (reported "run") ++ List.replicate calls last).take calls := by
  obtain ⟨r, hopen, -⟩ := isAt_of_header "run" 1 (emptyRowsRun.drop header.length)
  obtain ⟨outcomes, pieces, tail, last, hpieces, hcontent, hlast, hanswers, -⟩ :=
    reads_on_behind_failures hopen
  exact ⟨r, hopen, outcomes, pieces, tail, last, hpieces, hcontent, hlast, hanswers⟩

/-- Read with pages of one row, the batch is refused at its count, and the counts of its rows then
end the run. -/
theorem ends_behind_refused_batch :
    encode "run" [⟨2, [[], []]⟩] = .ok emptyRowsRun ∧ ∃ r, ofContent "run" emptyRowsRun 1 = .ok r ∧
      r.answers 2 = [.error (.runFile "run" (.batchExceedsPage 2 1)), .ok none] := by
  have hpieces : List.Forall₂ (IsPiece 1) [.error (.batchExceedsPage 2 1)] [littleEndian 4 2] :=
    .cons (isPiece_of_capacity_lt (by decide) (by decide)) .nil
  have hlast : IsLast "run" 1 (terminator ++ terminator) (.ok none) := .ended terminator
  obtain ⟨r, hopen, hanswers⟩ := exists_answers_of_pieces hpieces hlast
  exact ⟨by rfl, r, hopen, hanswers 2⟩

end Reader
end RunFile
end PagedQuery
