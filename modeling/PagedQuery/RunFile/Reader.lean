import PagedQuery.RunFile.Codec
import PagedQuery.RunFile.Input
import PagedQuery.Storage.Folder

/-!
# Reading run files

A `RunFile.Reader` streams the batches of a run. A read that meets the end of the file takes what
was left and reports the run as truncated; the next call goes on where the failed one stopped.
Only the terminator ends a run.
-/

namespace PagedQuery

abbrev Scan (α : Type) := ExceptT RunFault (StateM Input) α

namespace Scan

variable {α β : Type}

def perform (x : Scan α) (input : Input) : Except RunFault α × Input := x.run.run input

def take (n : Nat) : Scan Bytes := do
  let (bytes, input) := (← get).take? n
  set input
  match bytes with
  | some bytes => pure bytes
  | none => throw .truncated

def number (n : Nat) : Scan Nat := do
  let bytes ← take n
  pure (ofLittleEndian bytes)

/-- Reads `n` items, one after the other, behind the given ones in reverse order. -/
def repeated (item : Scan α) : Nat → List α → Scan (List α)
  | 0, items => pure items.reverse
  | n + 1, items => do
    let a ← item
    repeated item n (a :: items)

def text (n : Nat) : Scan String := do
  let bytes ← take n
  match String.fromUTF8? ⟨bytes.toArray⟩ with
  | some s => pure s
  | none => throw .invalidText

def field : Scan Field := do
  match ← number 1 with
  | 0 => pure .null
  | 1 => return .int (UInt64.ofNat (← number 8)).toInt64
  | 2 => return .float ⟨UInt64.ofNat (← number 8)⟩
  | 3 => return .string (← text (← number 4))
  | tag => throw (.unknownTag tag)

def row : Scan Row := do
  let count ← number 2
  repeated field count []

/-- Reads the magic bytes and the version. -/
def header : Scan Unit := do
  if (← take 4) ≠ RunFile.magic then
    throw .badMagic
  let version ← number 2
  if version ≠ RunFile.version then
    throw (.unsupportedVersion version)

/-- Reads a batch of at most `capacity` rows, or the terminator. -/
def batch? (capacity : Nat) : Scan (Option Batch) := do
  let count ← number 4
  if count = 0 then
    pure none
  else if capacity < count then
    throw (.batchExceedsPage count capacity)
  else
    let rows ← repeated row count []
    pure (some ⟨capacity, rows⟩)

theorem perform_pure (a : α) (input : Input) : (pure a : Scan α).perform input = (.ok a, input) := rfl

theorem perform_throw (fault : RunFault) (input : Input) :
    (throw fault : Scan α).perform input = (.error fault, input) := rfl

theorem perform_bind (x : Scan α) (f : α → Scan β) (input : Input) :
    (x >>= f).perform input =
      match x.perform input with
      | (.ok a, input) => (f a).perform input
      | (.error fault, input) => (.error fault, input) := by
  simp only [perform, ExceptT.run_bind, StateT.run_bind]
  rcases h : x.run.run input with ⟨answer, input'⟩
  cases answer <;> rfl

theorem perform_take (n : Nat) (input : Input) :
    (take n).perform input =
      (match (input.take? n).1 with
        | some bytes => .ok bytes
        | none => .error .truncated, (input.take? n).2) := by
  rcases h : input.take? n with ⟨answer, input'⟩
  have hget : (get : Scan Input).perform input = (.ok input, input) := rfl
  have hset : (set input' : Scan PUnit).perform input = (.ok ⟨⟩, input') := rfl
  rw [take, perform_bind, hget]
  simp only [h]
  rw [perform_bind, hset]
  cases answer <;> rfl

/-- A scan that takes at least so many bytes for what it reads, and never puts any back. -/
def Takes (x : Scan α) (bytes : α → Nat) : Prop :=
  ∀ input, (x.perform input).2.length ≤ input.length ∧
    ∀ a, (x.perform input).1 = .ok a → bytes a + (x.perform input).2.length ≤ input.length

namespace Takes

theorem pure (a : α) : Takes (pure a) fun _ => 0 := by
  intro input
  refine ⟨Nat.le_refl _, fun b _ => ?_⟩
  rw [Nat.zero_add]
  exact Nat.le_refl _

theorem throw (fault : RunFault) : Takes (throw fault : Scan α) fun _ => 0 :=
  fun _ => ⟨Nat.le_refl _, fun _ h => by cases h⟩

theorem take (n : Nat) : Takes (take n) fun _ => n := by
  intro input
  rw [perform_take]
  by_cases h : n ≤ input.length
  · obtain ⟨hanswer, hrest⟩ := Input.take?_of_le h
    have hlength : (input.take? n).2.length = input.length - n := by
      rw [← Input.length_unread, hrest, List.length_drop, Input.length_unread]
    exact ⟨by dsimp only; omega, fun _ _ => by dsimp only; omega⟩
  · rw [Input.take?_of_lt (by omega)]
    exact ⟨Nat.zero_le _, fun _ h' => by cases h'⟩

theorem bind {x : Scan α} {f : α → Scan β} {bytes : α → Nat} {all : β → Nat}
    (hx : Takes x bytes) (more : β → Nat) (hf : ∀ a, Takes (f a) more)
    (hall : ∀ a b, all b ≤ bytes a + more b) : Takes (x >>= f) all := by
  intro input
  obtain ⟨hfirst, hbytes⟩ := hx input
  rw [perform_bind]
  rcases hrun : x.perform input with ⟨fault | a, middle⟩ <;> rw [hrun] at hfirst hbytes
  · exact ⟨hfirst, fun b h => by cases h⟩
  · obtain ⟨hsecond, hmore⟩ := hf a middle
    have hspent := hbytes a rfl
    refine ⟨Nat.le_trans hsecond hfirst, fun b h => ?_⟩
    have := hmore b h
    have := hall a b
    dsimp only at hspent ⊢
    omega

theorem mono {x : Scan α} {bytes fewer : α → Nat} (hx : Takes x bytes)
    (h : ∀ a, fewer a ≤ bytes a) : Takes x fewer := fun input =>
  ⟨(hx input).1, fun a ha => Nat.le_trans (Nat.add_le_add_right (h a) _) ((hx input).2 a ha)⟩

/-- What follows takes whatever it takes. -/
theorem first {x : Scan α} {f : α → Scan β} {n : Nat} (hx : Takes x fun _ => n)
    (hf : ∀ a, Takes (f a) fun _ => 0) : Takes (x >>= f) fun _ => n :=
  hx.bind (fun _ => 0) hf fun _ _ => Nat.le_refl _

theorem map {x : Scan α} {bytes : α → Nat} {fewer : β → Nat} (g : α → β) (hx : Takes x bytes)
    (h : ∀ a, fewer (g a) ≤ bytes a) : Takes (do return g (← x)) fewer := by
  intro input
  obtain ⟨hfirst, hbytes⟩ := hx input
  rw [perform_bind]
  rcases hrun : x.perform input with ⟨fault | a, middle⟩ <;> rw [hrun] at hfirst hbytes
  · exact ⟨hfirst, fun b h => by cases h⟩
  · refine ⟨hfirst, fun b hb => ?_⟩
    obtain rfl : g a = b := Except.ok.inj hb
    exact Nat.le_trans (Nat.add_le_add_right (h a) _) (hbytes a rfl)

theorem number (n : Nat) : Takes (number n) fun _ => n :=
  (take n).first fun _ => pure _

theorem text (n : Nat) : Takes (text n) fun _ => 0 := by
  refine ((take n).first fun bytes => ?_).mono fun _ => Nat.zero_le _
  split
  · exact pure _
  · exact throw _

theorem field : Takes field fun _ => 0 := by
  refine ((number 1).first fun tag => ?_).mono fun _ => Nat.zero_le _
  split
  · exact pure _
  · exact ((number 8).first fun _ => pure _).mono fun _ => Nat.zero_le _
  · exact ((number 8).first fun _ => pure _).mono fun _ => Nat.zero_le _
  · refine ((number 4).first fun n => ?_).mono fun _ => Nat.zero_le _
    exact (text n).first fun _ => pure _
  · exact throw _

theorem repeated {item : Scan α} {n : Nat} (h : Takes item fun _ => n) (count : Nat)
    (done : List α) :
    Takes (repeated item count done) (fun items => n * (items.length - done.length)) := by
  induction count generalizing done with
  | zero =>
    intro input
    refine ⟨Nat.le_refl _, fun items hitems => ?_⟩
    obtain rfl : done.reverse = items := Except.ok.inj hitems
    dsimp only
    rw [List.length_reverse, Nat.sub_self, Nat.mul_zero, Nat.zero_add]
    exact Nat.le_refl _
  | succ count ih =>
    refine h.bind (fun items => n * (items.length - (done.length + 1))) (fun a => ih (a :: done)) ?_
    intro _ items
    have hlength : items.length - done.length ≤ 1 + (items.length - (done.length + 1)) := by omega
    calc n * (items.length - done.length)
        ≤ n * (1 + (items.length - (done.length + 1))) := Nat.mul_le_mul_left n hlength
      _ = n + n * (items.length - (done.length + 1)) := by rw [Nat.mul_add, Nat.mul_one]

/-- A row takes the two bytes of its count, at least. -/
theorem row : Takes row fun _ => 2 :=
  (number 2).first fun count => ((field.repeated count []).mono fun _ => Nat.zero_le _)

/-- A batch takes more bytes than it has rows. -/
theorem batch? (capacity : Nat) :
    Takes (batch? capacity) (fun found => found.elim 0 fun batch => batch.length + 1) := by
  refine (number 4).bind (fun found => found.elim 0 fun batch => 2 * batch.length)
    (fun count => ?_) fun _ found => ?_
  · split
    · exact (pure ()).map (fun _ => none) fun _ => Nat.le_refl _
    · split
      · exact fun _ => ⟨Nat.le_refl _, fun _ h => by cases h⟩
      · exact (row.repeated count []).map (fun rows => some (Batch.mk capacity rows)) fun _ =>
          Nat.le_refl _
  · cases found with
    | none => exact Nat.zero_le _
    | some batch =>
      dsimp only [Option.elim]
      omega

end Takes

end Scan

namespace RunFile

/-- A run being read. -/
structure Reader where
  path : String
  input : Input
  /-- The largest batch that is accepted. -/
  capacity : Nat
  isDone : Bool
  deriving DecidableEq, Repr

namespace Reader

/-- Opens a run with the given content and checks its header. -/
def ofContent (path : String) (content : Bytes) (capacity : Nat) : Except Error Reader :=
  match Scan.header.perform (.ofContent content) with
  | (.ok (), input) => .ok ⟨path, input, capacity, false⟩
  | (.error fault, _) => .error (.runFile path fault)

def ofFile (folder : Folder) (file : String) (capacity : Nat) : Except Error Reader :=
  match folder.read? file with
  | none => .error .io
  | some content => ofContent (folder.path file) content capacity

/-- The next batch, or `none` once the terminator was read. -/
def next (r : Reader) : Except Error (Option Batch) × Reader :=
  if r.isDone then (.ok none, r)
  else
    match (Scan.batch? r.capacity).perform r.input with
    | (.ok (some batch), input) => (.ok (some batch), { r with input })
    | (.ok none, input) => (.ok none, { r with input, isDone := true })
    | (.error fault, input) => (.error (.runFile r.path fault), { r with input })

/-- Every batch takes more bytes than it has rows. -/
theorem pageCost_next (r : Reader) :
    pageCost r.next.1 + r.next.2.input.length ≤ r.input.length := by
  obtain ⟨hlength, hbatch⟩ := Scan.Takes.batch? r.capacity r.input
  unfold next
  split
  · exact Nat.le_of_eq (Nat.zero_add _)
  · rcases hrun : (Scan.batch? r.capacity).perform r.input with ⟨fault | found, input⟩ <;>
      rw [hrun] at hlength hbatch
    · simpa [pageCost] using hlength
    · cases found with
      | none => simpa [pageCost] using hlength
      | some batch => exact hbatch _ rfl

end Reader

/-- A run being read row by row. -/
structure RowReader where
  /-- The rows of the page at hand that are still to come. -/
  pending : List Row
  reader : Reader
  deriving DecidableEq, Repr

namespace RowReader

def ofReader (reader : Reader) : RowReader := ⟨[], reader⟩

/-- The next row, for which a page is fetched if there is none at hand. The number bounds the pages that
are fetched until one has a row. -/
def nextWithin : Nat → RowReader → Except Error (Option Row) × RowReader
  | _, ⟨row :: pending, reader⟩ => (.ok (some row), ⟨pending, reader⟩)
  | 0, ⟨[], reader⟩ => (.ok none, ⟨[], reader⟩)
  | pages + 1, ⟨[], reader⟩ =>
    match reader.next with
    | (.ok (some batch), reader) => nextWithin pages ⟨batch.rows, reader⟩
    | (.ok none, reader) => (.ok none, ⟨[], reader⟩)
    | (.error e, reader) => (.error e, ⟨[], reader⟩)

/-- The next row of the run, or `none` at its end. Every page takes at least a byte. -/
def next (r : RowReader) : Except Error (Option Row) × RowReader :=
  r.nextWithin (r.reader.input.length + 1)

end RowReader

end RunFile
end PagedQuery
