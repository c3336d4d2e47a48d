import PagedQuery.RunFile.Reader

namespace PagedQuery
namespace RunFile

/-- The rows of a run up to its end, and the error in place of the end if there is one. -/
structure Stream where
  rows : List Row
  fault : Option Error
  deriving DecidableEq, Repr

namespace Reader

/-- Reads a run to its end or to its first error. Every batch takes at least a byte, which bounds
the number of reads. -/
def drain : Nat → Reader → Stream
  | 0, _ => ⟨[], none⟩
  | steps + 1, r =>
    match r.next with
    | (.ok (some batch), r) =>
      let stream := drain steps r
      ⟨batch.rows ++ stream.rows, stream.fault⟩
    | (.ok none, _) => ⟨[], none⟩
    | (.error e, _) => ⟨[], some e⟩

def stream (r : Reader) : Stream := r.drain (r.input.length + 1)

variable {r r' : Reader} {batch : Batch} {steps steps' : Nat}

theorem length_lt_of_next (h : r.next = (.ok (some batch), r')) :
    batch.rows.length + r'.input.length < r.input.length := by
  have hcost := r.pageCost_next
  rw [h] at hcost
  simp only [pageCost, Batch.length] at hcost
  omega

/-- The number of reads does not matter if it is large enough. -/
theorem drain_congr (h : r.input.length < steps) (h' : r.input.length < steps') :
    r.drain steps = r.drain steps' := by
  induction steps generalizing r steps' with
  | zero => exact absurd h (Nat.not_lt_zero _)
  | succ steps ih =>
    obtain ⟨steps', rfl⟩ : ∃ n, steps' = n + 1 := ⟨steps' - 1, by omega⟩
    rw [drain, drain]
    rcases hnext : r.next with ⟨e | _ | batch, r'⟩
    · rfl
    · rfl
    · have hlength := length_lt_of_next hnext
      have hrest : r'.drain steps = r'.drain steps' := ih (by omega) (by omega)
      simp only [hrest]

theorem stream_of_batch (h : r.next = (.ok (some batch), r')) :
    r.stream = ⟨batch.rows ++ r'.stream.rows, r'.stream.fault⟩ := by
  have hlength := length_lt_of_next h
  have hrest : r'.drain r.input.length = r'.stream := drain_congr (by omega) (Nat.lt_succ_self _)
  rw [stream, drain, h]
  simp only [hrest]

theorem stream_of_end (h : r.next = (.ok none, r')) : r.stream = ⟨[], none⟩ := by
  rw [stream, drain, h]

theorem stream_of_error {e : Error} (h : r.next = (.error e, r')) : r.stream = ⟨[], some e⟩ := by
  rw [stream, drain, h]

theorem length_drain_le (steps : Nat) (r : Reader) : (r.drain steps).rows.length ≤ r.input.length := by
  induction steps generalizing r with
  | zero => exact Nat.zero_le _
  | succ steps ih =>
    rw [drain]
    rcases hnext : r.next with ⟨e | _ | batch, r'⟩
    · exact Nat.zero_le _
    · exact Nat.zero_le _
    · have hlength := length_lt_of_next hnext
      have hrest := ih r'
      simp only [List.length_append]
      omega

theorem length_stream_le (r : Reader) : r.stream.rows.length ≤ r.input.length :=
  length_drain_le _ r

end Reader

namespace RowReader

/-- The rows that are still to come. -/
def stream (r : RowReader) : Stream := ⟨r.pending ++ r.reader.stream.rows, r.reader.stream.fault⟩

theorem stream_ofReader (reader : Reader) : (ofReader reader).stream = reader.stream := rfl

/-- The next row is the first of those to come; without one the run is at its end or breaks off. -/
theorem stream_nextWithin {pages : Nat} {r : RowReader} (h : r.reader.input.length < pages) :
    match r.nextWithin pages with
    | (.ok (some row), r') => r.stream = ⟨row :: r'.stream.rows, r'.stream.fault⟩
    | (.ok none, _) => r.stream = ⟨[], none⟩
    | (.error e, _) => r.stream = ⟨[], some e⟩ := by
  induction pages generalizing r with
  | zero => exact absurd h (Nat.not_lt_zero _)
  | succ pages ih =>
    obtain ⟨_ | ⟨row, pending⟩, reader⟩ := r
    · rw [nextWithin]
      rcases hnext : reader.next with ⟨e | _ | batch, reader'⟩
      · exact Reader.stream_of_error hnext
      · exact Reader.stream_of_end hnext
      · have hlength := Reader.length_lt_of_next hnext
        have hsame : stream ⟨[], reader⟩ = stream ⟨batch.rows, reader'⟩ :=
          Reader.stream_of_batch hnext
        rw [hsame]
        exact ih (by dsimp only at h ⊢; omega)
    · exact rfl

theorem stream_next (r : RowReader) :
    match r.next with
    | (.ok (some row), r') => r.stream = ⟨row :: r'.stream.rows, r'.stream.fault⟩
    | (.ok none, _) => r.stream = ⟨[], none⟩
    | (.error e, _) => r.stream = ⟨[], some e⟩ :=
  stream_nextWithin (Nat.lt_succ_self _)

end RowReader

end RunFile
end PagedQuery
