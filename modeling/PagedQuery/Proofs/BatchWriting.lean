import PagedQuery.Proofs.ActAnswers
import PagedQuery.Proofs.RunEncoding
import PagedQuery.RunFile.Writer

/-!
# Writing batches

A writer puts the bytes of a batch together in its scratch buffer, which it empties first, and hands
them on when all of them are there. What it hands on is therefore what the format says of the batch,
and what a refused batch has left in the buffer plays no role.
-/

namespace PagedQuery
namespace RunFile

theorem append_append (bytes more scratch : Bytes) :
    append more (append bytes scratch) = append (bytes ++ more) scratch := by
  simp [append, List.reverseAux_eq]

@[simp]
theorem reverse_append_nil (bytes : Bytes) : (append bytes []).reverse = bytes := by
  simp [append, List.reverseAux_eq]

/-- Whether a step puts the bytes of an encoding behind a buffer. Where there are none, the answer says
why, and some bytes may have been put there all the same. -/
structure Appends (step : Bytes → Except Error Unit × Bytes) (encoded : Except Error Bytes) :
    Prop where
  of_ok : ∀ bytes, encoded = .ok bytes → ∀ scratch, step scratch = (.ok (), append bytes scratch)
  of_error : ∀ e, encoded = .error e → ∀ scratch, ∃ part, step scratch = (.error e, append part scratch)

section Appends

variable {step : Bytes → Except Error Unit × Bytes} {encoded : Except Error Bytes}

theorem appends_refuse (e : Error) : Appends (fun scratch => (.error e, scratch)) (.error e) :=
  ⟨nofun, fun _ h _ => ⟨[], by rw [Except.error.inj h]; rfl⟩⟩

theorem appends_nil : Appends (fun scratch => (.ok (), scratch)) (.ok []) :=
  ⟨fun _ h _ => by rw [← Except.ok.inj h]; rfl, nofun⟩

theorem Appends.append (h : Appends step encoded) (bytes : Bytes) :
    Appends (fun scratch => step (append bytes scratch)) (encoded.map (bytes ++ ·)) := by
  cases encoded with
  | ok more =>
    refine ⟨fun all hall scratch => ?_, nofun⟩
    obtain rfl := Except.ok.inj hall
    rw [h.of_ok more rfl, append_append]
  | error e =>
    refine ⟨nofun, fun e' he scratch => ?_⟩
    obtain rfl := Except.error.inj he
    obtain ⟨part, hpart⟩ := h.of_error e rfl (RunFile.append bytes scratch)
    exact ⟨bytes ++ part, by rw [hpart, append_append]⟩

theorem appends_fields (fields : List Field) :
    Appends (appendFields fields) ((fields.mapM encodeField).map List.flatten) := by
  induction fields with
  | nil => exact appends_nil
  | cons field fields ih =>
    rw [List.mapM_cons]
    cases hfield : encodeField field with
    | error e =>
      have hstops : appendFields (field :: fields) = fun scratch => (.error e, scratch) := by
        funext scratch
        rw [appendFields, hfield]
      exact hstops ▸ appends_refuse e
    | ok bytes =>
      have hgoes : appendFields (field :: fields) =
          fun scratch => appendFields fields (RunFile.append bytes scratch) := by
        funext scratch
        rw [appendFields, hfield]
      rw [hgoes]
      have hrest := ih.append bytes
      cases hfields : fields.mapM encodeField with
      | error e => rwa [hfields] at hrest
      | ok pieces => rwa [hfields] at hrest

theorem appends_row (row : Row) : Appends (appendRow row) (encodeRow row) := by
  change Appends (fun scratch => if row.length < 0x10000 then
    appendFields row (RunFile.append (littleEndian 2 row.length) scratch)
    else (.error (.rowTooWide row.length), scratch)) _
  unfold encodeRow
  split
  · have hfields := (appends_fields row).append (littleEndian 2 row.length)
    cases hmap : row.mapM encodeField with
    | error e => rwa [hmap] at hfields
    | ok pieces => rwa [hmap] at hfields
  · exact appends_refuse _

theorem appends_rows (rows : List Row) :
    Appends (appendRows rows) ((rows.mapM encodeRow).map List.flatten) := by
  induction rows with
  | nil => exact appends_nil
  | cons row rows ih =>
    rw [List.mapM_cons]
    have hrow := appends_row row
    cases hfirst : encodeRow row with
    | error e =>
      refine ⟨nofun, fun e' he scratch => ?_⟩
      obtain rfl : e = e' := Except.error.inj he
      obtain ⟨part, hpart⟩ := hrow.of_error e hfirst scratch
      exact ⟨part, by rw [appendRows, hpart]⟩
    | ok bytes =>
      have hgoes : appendRows (row :: rows) =
          fun scratch => appendRows rows (RunFile.append bytes scratch) := by
        funext scratch
        rw [appendRows, hrow.of_ok bytes hfirst]
      rw [hgoes]
      have hrest := ih.append bytes
      cases hrows : rows.mapM encodeRow with
      | error e => rwa [hrows] at hrest
      | ok pieces => rwa [hrows] at hrest

end Appends

/-- What a writer and a chunk that it hands out make of more bytes: the chunk goes where the writer
stands, and nothing is lost. -/
structure Passes (w : Writer) (more : Bytes) (out : Writer × Chunk) : Prop where
  path_eq : out.1.path = w.path
  position_eq : out.2.position = w.position
  moves : out.1.position = w.position + out.2.bytes.length
  keeps : out.2.bytes ++ out.1.buffered = w.buffered ++ more

theorem passes_flush (w : Writer) : Passes w [] w.flush :=
  ⟨rfl, rfl, rfl, rfl⟩

theorem passes_put (w : Writer) (more : Bytes) : Passes w more (w.put more) := by
  unfold Writer.put
  dsimp only
  split
  · exact ⟨rfl, rfl, rfl, List.append_nil _⟩
  · split
    · exact ⟨rfl, rfl, rfl, rfl⟩
    · exact ⟨rfl, rfl, rfl, rfl⟩

namespace Writer

variable {w : Writer} {batch : Batch}

/-- The bytes of a batch are passed on, whatever an earlier one has left in the scratch buffer. -/
theorem writeBatch_of_encodeBatch {bytes : Bytes} (h : encodeBatch w.path batch = .ok bytes) :
    ∃ chunk w', w.writeBatch batch = (.ok chunk, w') ∧ Passes w bytes (w', chunk) := by
  rw [encodeBatch] at h
  rw [writeBatch]
  split at h
  · next hempty =>
    obtain rfl := Except.ok.inj h
    exact ⟨_, w, if_pos hempty, rfl, rfl, rfl, (List.append_nil _).symm⟩
  · next hempty =>
    split at h
    · next hcount =>
      obtain ⟨pieces, hpieces, hbytes⟩ := exists_of_bind_eq_ok h
      obtain rfl := Except.ok.inj hbytes
      have hrows := (appends_rows batch.rows).of_ok pieces.flatten (by rw [hpieces]; rfl)
      let encoded : Writer := { w with
        scratch := append (littleEndian 4 batch.length ++ pieces.flatten) [] }
      obtain ⟨hpath, hposition, hmoves, hkeeps⟩ :=
        passes_put encoded (littleEndian 4 batch.length ++ pieces.flatten)
      let out := encoded.put (littleEndian 4 batch.length ++ pieces.flatten)
      refine ⟨out.2, out.1, ?_, hpath, hposition, hmoves, hkeeps⟩
      rw [if_neg hempty, if_pos hcount, encode, hrows, append_append]
      simp only [clear, reverse_append_nil]
      rfl
    · cases h

/-- Nothing is passed on of a batch that cannot be encoded; at most the scratch buffer has changed. -/
theorem writeBatch_of_error {e : Error} (h : encodeBatch w.path batch = .error e) :
    ∃ scratch, w.writeBatch batch = (.error e, { w with scratch }) := by
  rw [encodeBatch] at h
  rw [writeBatch]
  split at h
  · cases h
  · next hempty =>
    rw [if_neg hempty]
    split at h
    · next hcount =>
      rw [if_pos hcount]
      cases hpieces : batch.rows.mapM encodeRow with
      | ok pieces => rw [hpieces] at h; cases h
      | error e' =>
        rw [hpieces] at h
        obtain rfl : e' = e := Except.error.inj h
        obtain ⟨part, hpart⟩ := (appends_rows batch.rows).of_error e' (by rw [hpieces]; rfl)
          (append (littleEndian 4 batch.length) w.clear.scratch)
        exact ⟨append part (append (littleEndian 4 batch.length) w.clear.scratch), by
          rw [encode, hpart]; rfl⟩
    · next hcount =>
      rw [if_neg hcount]
      obtain rfl := Except.error.inj h
      exact ⟨w.scratch, rfl⟩

end Writer

end RunFile
end PagedQuery
