import PagedQuery.Proofs.RunReading

namespace PagedQuery

/-- Whether a row has more fields than a run can hold. -/
def Row.isWide (row : Row) : Bool := decide (0xffff < row.length)

/-- The strings of a row are as short as a run can hold. -/
def Row.HasShortStrings (row : Row) : Prop :=
  ∀ text, Field.string text ∈ row → (utf8Bytes text).length < 0x100000000

instance (row : Row) : Decidable row.HasShortStrings :=
  decidable_of_iff (∀ f ∈ row, (match f with
    | .string text => decide ((utf8Bytes text).length < 0x100000000)
    | _ => true) = true)
    ⟨fun h text htext => of_decide_eq_true (h _ htext), fun h f hf => by
      cases f with
      | string text => exact decide_eq_true (h text hf)
      | _ => rfl⟩

namespace RunFile

theorem exists_encodeField {field : Field}
    (h : ∀ text, field = .string text → (utf8Bytes text).length < 0x100000000) :
    ∃ bytes, encodeField field = .ok bytes := by
  cases field with
  | string text => exact ⟨_, if_pos (h text rfl)⟩
  | _ => exact ⟨_, rfl⟩

theorem exists_forall₂ {α β : Type} {R : α → β → Prop} {as : List α} (h : ∀ a ∈ as, ∃ b, R a b) :
    ∃ bs, List.Forall₂ R as bs := by
  induction as with
  | nil => exact ⟨[], .nil⟩
  | cons a as ih =>
    rw [List.forall_mem_cons] at h
    obtain ⟨b, hb⟩ := h.1
    obtain ⟨bs, hbs⟩ := ih h.2
    exact ⟨b :: bs, .cons hb hbs⟩

theorem encodeRow_of_isWide {row : Row} (h : row.isWide = true) :
    encodeRow row = .error (.rowTooWide row.length) := by
  have hwide : ¬row.length < 0x10000 := by
    have := of_decide_eq_true h
    omega
  rw [encodeRow, if_neg hwide]

theorem exists_encodeRow {row : Row} (hwide : row.isWide = false) (hshort : row.HasShortStrings) :
    ∃ bytes, encodeRow row = .ok bytes := by
  have hfield : ∀ field ∈ row, ∃ bytes, encodeField field = .ok bytes := fun field hfield =>
    exists_encodeField fun text htext => hshort text (htext ▸ hfield)
  obtain ⟨fields, hfields⟩ := exists_forall₂ hfield
  have hlength : ¬0xffff < row.length := of_decide_eq_false hwide
  exact ⟨_, encodeRow_eq_ok_iff.mpr ⟨by omega, fields, hfields, rfl⟩⟩

theorem mapM_encodeRow_eq_error {rows : List Row} {row : Row}
    (hshort : ∀ row ∈ rows, Row.HasShortStrings row) (h : rows.find? Row.isWide = some row) :
    rows.mapM encodeRow = .error (.rowTooWide row.length) := by
  induction rows with
  | nil => cases h
  | cons first rows ih =>
    rw [List.forall_mem_cons] at hshort
    rw [List.mapM_cons]
    cases hwide : first.isWide with
    | true =>
      rw [List.find?_cons_of_pos hwide] at h
      obtain rfl := Option.some.inj h
      rw [encodeRow_of_isWide hwide]
      rfl
    | false =>
      rw [List.find?_cons_of_neg (by simp [hwide])] at h
      obtain ⟨bytes, hbytes⟩ := exists_encodeRow hwide hshort.1
      rw [hbytes, ih hshort.2 h]
      rfl

variable {path : String} {batch : Batch}

theorem encodeBatch_of_wide {row : Row} (hcount : batch.length < 0x100000000)
    (hshort : ∀ row ∈ batch.rows, Row.HasShortStrings row)
    (h : batch.rows.find? Row.isWide = some row) :
    encodeBatch path batch = .error (.rowTooWide row.length) := by
  have hempty : batch.isEmpty = false := by
    cases hrows : batch.rows with
    | nil => simp [hrows] at h
    | cons first rows => simp [Batch.isEmpty, hrows]
  rw [encodeBatch, if_neg (by simp [hempty]), if_pos hcount, mapM_encodeRow_eq_error hshort h]
  rfl

theorem exists_encodeBatch (path : String) (hcount : batch.length < 0x100000000)
    (hshort : ∀ row ∈ batch.rows, Row.HasShortStrings row)
    (h : batch.rows.find? Row.isWide = none) : ∃ bytes, encodeBatch path batch = .ok bytes := by
  by_cases hrows : batch.rows = []
  · exact ⟨[], encodeBatch_of_isEmpty hrows⟩
  · have hrow : ∀ row ∈ batch.rows, ∃ bytes, encodeRow row = .ok bytes := fun row hrow =>
      exists_encodeRow (Bool.eq_false_iff.mpr (List.find?_eq_none.mp h row hrow)) (hshort row hrow)
    obtain ⟨pieces, hpieces⟩ := exists_forall₂ hrow
    exact ⟨_, (encodeBatch_eq_ok_iff hrows).mpr ⟨hcount, pieces, hpieces, rfl⟩⟩

theorem encodeBatch_of_long_text (path : String) (capacity : Nat) {text : String}
    (h : 0x100000000 ≤ (utf8Bytes text).length) :
    encodeBatch path ⟨capacity, [[.string text]]⟩ = .error .stringTooLong := by
  have hfield : encodeField (.string text) = .error .stringTooLong := if_neg (Nat.not_lt.mpr h)
  have hrow : encodeRow [.string text] = .error .stringTooLong := by
    have hnarrow : [Field.string text].length < 0x10000 := (by decide : 1 < 0x10000)
    rw [encodeRow, if_pos hnarrow, List.mapM_cons, hfield]
    rfl
  have hfew : Batch.length ⟨capacity, [[.string text]]⟩ < 0x100000000 :=
    (by decide : 1 < 0x100000000)
  rw [encodeBatch, if_neg (by simp [Batch.isEmpty]), if_pos hfew, List.mapM_cons, hrow]
  rfl

theorem spellsBatch_of_encodeBatch {path : String} {batch : Batch} {bytes : Bytes} {capacity : Nat}
    (hrows : batch.rows ≠ []) (hfits : batch.length ≤ capacity)
    (h : encodeBatch path batch = .ok bytes) :
    Scan.SpellsBatch capacity (some ⟨capacity, batch.rows⟩) bytes := by
  refine ⟨rfl, hrows, hfits, fun path' => ?_⟩
  exact (encodeBatch_eq_ok_iff hrows).mpr ((encodeBatch_eq_ok_iff hrows).mp h)

/-- Why rows cannot be written: a row has too many fields, a string is too long, or a batch has too
many rows. -/
inductive EncodingFault : Error → Prop
  | wideRow {fields : Nat} (hwide : 0xffff < fields) : EncodingFault (.rowTooWide fields)
  | longString : EncodingFault .stringTooLong
  | longBatch (path : String) : EncodingFault (.runFile path .batchTooLarge)

theorem exists_of_mapM_eq_error {ε α β : Type} {f : α → Except ε β} {as : List α} {e : ε}
    (h : as.mapM f = .error e) : ∃ a ∈ as, f a = .error e := by
  induction as with
  | nil => cases h
  | cons a as ih =>
    rw [List.mapM_cons] at h
    cases ha : f a with
    | error e' =>
      rw [ha] at h
      exact ⟨a, List.mem_cons_self, ha.trans (congrArg _ (Except.error.inj h))⟩
    | ok b =>
      have hrest : as.mapM f = .error e := by
        cases hall : as.mapM f with
        | error e' =>
          rw [ha, hall] at h
          exact congrArg _ (Except.error.inj h)
        | ok bs =>
          rw [ha, hall] at h
          cases h
      obtain ⟨a', ha', hfault⟩ := ih hrest
      exact ⟨a', List.mem_cons_of_mem a ha', hfault⟩

theorem EncodingFault.of_encodeRow {row : Row} {e : Error} (h : encodeRow row = .error e) :
    EncodingFault e := by
  unfold encodeRow at h
  split at h
  · cases hfields : row.mapM encodeField with
    | ok fields =>
      rw [hfields] at h
      cases h
    | error e' =>
      rw [hfields] at h
      obtain rfl := Except.error.inj h
      obtain ⟨field, -, hfield⟩ := exists_of_mapM_eq_error hfields
      cases field with
      | string text =>
        simp only [encodeField] at hfield
        split at hfield
        · cases hfield
        · exact Except.error.inj hfield ▸ .longString
      | _ => cases hfield
  · next hwide => exact Except.error.inj h ▸ .wideRow (by omega)

theorem EncodingFault.of_encodeBatch {e : Error} (h : encodeBatch path batch = .error e) :
    EncodingFault e := by
  unfold encodeBatch at h
  split at h
  · cases h
  · split at h
    · cases hrows : batch.rows.mapM encodeRow with
      | ok rows =>
        rw [hrows] at h
        cases h
      | error e' =>
        rw [hrows] at h
        obtain rfl := Except.error.inj h
        obtain ⟨row, -, hrow⟩ := exists_of_mapM_eq_error hrows
        exact .of_encodeRow hrow
    · exact Except.error.inj h ▸ .longBatch path

theorem EncodingFault.of_encode {batches : List Batch} {e : Error}
    (h : encode path batches = .error e) : EncodingFault e := by
  unfold encode at h
  cases hbodies : batches.mapM (encodeBatch path) with
  | ok bodies =>
    rw [hbodies] at h
    cases h
  | error e' =>
    rw [hbodies] at h
    obtain rfl := Except.error.inj h
    obtain ⟨batch, -, hbatch⟩ := exists_of_mapM_eq_error hbodies
    exact .of_encodeBatch hbatch

end RunFile
end PagedQuery
