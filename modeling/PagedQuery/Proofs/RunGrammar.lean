import Mathlib.Data.List.Forall2
import PagedQuery.RunFile.Reader

/-!
# The grammar of run files

What the parts of a run file may be spelled by, and that the scans read exactly that. A scan
`Parses` a grammar if it reads every spelling, whatever stands behind it, and if what it has read is
a spelling of its answer. Fields, rows and batches are parsed in the grammar that the encoder gives,
so that every value has one spelling.
-/

namespace PagedQuery

variable {α β : Type}

/-- The results of a list of fallible computations, one for each item. -/
theorem mapM_eq_ok_iff {ε : Type} {f : α → Except ε β} {as : List α} {bs : List β} :
    as.mapM f = .ok bs ↔ List.Forall₂ (fun a b => f a = .ok b) as bs := by
  induction as generalizing bs with
  | nil =>
    rw [List.mapM_nil, List.forall₂_nil_left_iff]
    exact ⟨fun h => (Except.ok.inj h).symm, fun h => by rw [h]; rfl⟩
  | cons a as ih =>
    rw [List.mapM_cons]
    constructor
    · intro h
      cases ha : f a with
      | error e => rw [ha] at h; cases h
      | ok b =>
        cases has : as.mapM f with
        | error e => rw [ha, has] at h; cases h
        | ok rest =>
          rw [ha, has] at h
          obtain rfl : b :: rest = bs := Except.ok.inj h
          exact .cons ha (ih.mp has)
    · intro h
      cases h with
      | cons ha has =>
        rw [ha, ih.mpr has]
        rfl

theorem exists_of_mem_mapM {ε : Type} {f : α → Except ε β} {as : List α} {bs : List β} {b : β}
    (h : as.mapM f = .ok bs) (hb : b ∈ bs) : ∃ a ∈ as, f a = .ok b := by
  have hpairs := mapM_eq_ok_iff.mp h
  clear h
  induction hpairs with
  | nil => cases hb
  | @cons a b' as bs hab hrest ih =>
    rcases List.mem_cons.mp hb with rfl | hb
    · exact ⟨a, List.mem_cons_self, hab⟩
    · obtain ⟨a', ha', hab'⟩ := ih hb
      exact ⟨a', List.mem_cons_of_mem a ha', hab'⟩

theorem exists_of_forall₂ {R : α → β → Prop} {as : List α} {bs : List β}
    (h : List.Forall₂ R as bs) : ∀ a ∈ as, ∃ b, R a b := by
  induction h with
  | nil => exact List.forall_mem_nil _
  | cons hab _ ih => exact List.forall_mem_cons.mpr ⟨⟨_, hab⟩, ih⟩

namespace RunFile

theorem encodeRow_eq_ok_iff {row : Row} {bytes : Bytes} :
    encodeRow row = .ok bytes ↔ row.length < 0x10000 ∧
      ∃ fields, List.Forall₂ (fun field piece => encodeField field = .ok piece) row fields ∧
        bytes = littleEndian 2 row.length ++ fields.flatten := by
  unfold encodeRow
  by_cases hwidth : row.length < 0x10000
  · simp only [hwidth, if_true, true_and, ← mapM_eq_ok_iff]
    cases hfields : row.mapM encodeField with
    | error e => simp [bind, Except.bind]
    | ok fields => simp [bind, Except.bind, pure, Except.pure, eq_comm]
  · simp [hwidth]

theorem encodeBatch_of_isEmpty {path : String} {batch : Batch} (h : batch.rows = []) :
    encodeBatch path batch = .ok [] := by
  simp [encodeBatch, Batch.isEmpty, h, pure, Except.pure]

theorem encodeBatch_eq_ok_iff {path : String} {batch : Batch} {bytes : Bytes}
    (h : batch.rows ≠ []) :
    encodeBatch path batch = .ok bytes ↔ batch.length < 0x100000000 ∧
      ∃ rows, List.Forall₂ (fun row piece => encodeRow row = .ok piece) batch.rows rows ∧
        bytes = littleEndian 4 batch.length ++ rows.flatten := by
  have hempty : batch.isEmpty = false := by simp [Batch.isEmpty, h]
  unfold encodeBatch
  by_cases hlength : batch.length < 0x100000000
  · simp only [hempty, hlength, if_true, true_and, ← mapM_eq_ok_iff, Bool.false_eq_true, if_false]
    cases hrows : batch.rows.mapM encodeRow with
    | error e => simp [bind, Except.bind]
    | ok rows => simp [bind, Except.bind, pure, Except.pure, eq_comm]
  · simp [hempty, hlength]

end RunFile

namespace Scan

/-- A scan that reads the spellings of its answers and nothing else. -/
structure Parses (x : Scan α) (spells : α → Bytes → Prop) : Prop where
  /-- Every spelling is read, and what stands behind it is left. -/
  complete : ∀ {a bytes}, spells a bytes → ∀ {input : Input} {rest}, input.unread = bytes ++ rest →
    ∃ input', x.perform input = (.ok a, input') ∧ input'.unread = rest
  /-- What was read is a spelling of the answer. -/
  sound : ∀ {input a input'}, x.perform input = (.ok a, input') →
    ∃ bytes, spells a bytes ∧ input.unread = bytes ++ input'.unread
  /-- Bytes are fetched from the front of the file. -/
  advances : ∀ input, (x.perform input).2.rest <:+ input.rest

namespace Parses

variable {x : Scan α} {f : α → Scan β} {spells spells' : α → Bytes → Prop}
  {after : α → β → Bytes → Prop}

theorem congr (h : Parses x spells) (hspells : ∀ a bytes, spells a bytes ↔ spells' a bytes) :
    Parses x spells' where
  complete ha := h.complete ((hspells _ _).mpr ha)
  sound hx := by
    obtain ⟨bytes, ha, hunread⟩ := h.sound hx
    exact ⟨bytes, (hspells _ _).mp ha, hunread⟩
  advances := h.advances

theorem pure (a : α) : Parses (pure a) (fun b bytes => b = a ∧ bytes = []) where
  complete := by
    rintro b bytes ⟨rfl, rfl⟩ input rest hunread
    exact ⟨input, rfl, by simpa using hunread⟩
  sound := by
    intro input b input' h
    rw [perform_pure] at h
    obtain ⟨hb, rfl⟩ := Prod.mk.inj h
    exact ⟨[], ⟨(Except.ok.inj hb).symm, rfl⟩, rfl⟩
  advances input := List.suffix_rfl

theorem throw (fault : RunFault) : Parses (throw fault : Scan α) (fun _ _ => False) where
  complete h := h.elim
  sound := by
    intro input a input' h
    rw [perform_throw] at h
    cases (Prod.mk.inj h).1
  advances input := List.suffix_rfl

/-- What follows is read behind what was read first. -/
theorem bind (hx : Parses x spells) (hf : ∀ a, Parses (f a) (after a)) :
    Parses (x >>= f) (fun b bytes =>
      ∃ a front back, spells a front ∧ after a b back ∧ bytes = front ++ back) where
  complete := by
    rintro b bytes ⟨a, front, back, ha, hb, rfl⟩ input rest hunread
    rw [List.append_assoc] at hunread
    obtain ⟨input', hrun, hunread'⟩ := hx.complete ha hunread
    obtain ⟨input'', hrun', hrest⟩ := (hf a).complete hb hunread'
    exact ⟨input'', by rw [perform_bind, hrun]; exact hrun', hrest⟩
  sound := by
    intro input b input' h
    rw [perform_bind] at h
    rcases hrun : x.perform input with ⟨answer, middle⟩
    rw [hrun] at h
    cases answer with
    | error fault => cases (Prod.mk.inj h).1
    | ok a =>
      obtain ⟨front, ha, hfront⟩ := hx.sound hrun
      obtain ⟨back, hb, hback⟩ := (hf a).sound h
      exact ⟨front ++ back, ⟨a, front, back, ha, hb, rfl⟩, by rw [hfront, hback, List.append_assoc]⟩
  advances := by
    intro input
    have hfirst := hx.advances input
    rw [perform_bind]
    rcases hrun : x.perform input with ⟨fault | a, middle⟩ <;> rw [hrun] at hfirst
    · exact hfirst
    · exact ((hf a).advances middle).trans hfirst

theorem take (n : Nat) : Parses (take n) (fun a bytes => bytes = a ∧ a.length = n) where
  complete := by
    rintro a bytes ⟨rfl, rfl⟩ input rest hunread
    have hle : bytes.length ≤ input.length := by
      rw [← Input.length_unread, hunread, List.length_append]
      exact Nat.le_add_right _ _
    obtain ⟨hanswer, hrest⟩ := Input.take?_of_le hle
    rw [hunread, List.take_left] at hanswer
    rw [hunread, List.drop_left] at hrest
    exact ⟨_, by rw [perform_take, hanswer], hrest⟩
  sound := by
    intro input a input' h
    rw [perform_take] at h
    obtain ⟨hanswer, rfl⟩ := Prod.mk.inj h
    by_cases hle : n ≤ input.length
    · obtain ⟨htake, hdrop⟩ := Input.take?_of_le hle
      rw [htake] at hanswer
      obtain rfl : input.unread.take n = a := Except.ok.inj hanswer
      refine ⟨_, ⟨rfl, ?_⟩, by rw [hdrop, List.take_append_drop]⟩
      rw [List.length_take, Input.length_unread]
      omega
    · rw [Input.take?_of_lt (by omega)] at hanswer
      cases hanswer
  advances input := by
    rw [perform_take]
    exact Input.rest_take?_suffix n input

theorem number (n : Nat) :
    Parses (number n) (fun v bytes => bytes = littleEndian n v ∧ v < Nat.pow 256 n) := by
  refine ((take n).bind fun bytes => pure (ofLittleEndian bytes)).congr ?_
  intro v bytes
  constructor
  · rintro ⟨a, front, back, ⟨rfl, rfl⟩, ⟨rfl, rfl⟩, rfl⟩
    rw [List.append_nil]
    exact ⟨(littleEndian_ofLittleEndian front).symm, ofLittleEndian_lt front⟩
  · rintro ⟨rfl, hv⟩
    exact ⟨_, _, [], ⟨rfl, length_littleEndian n v⟩,
      ⟨(ofLittleEndian_littleEndian hv).symm, rfl⟩, (List.append_nil _).symm⟩

theorem decoded (bytes : Bytes) : Parses
    (match String.fromUTF8? ⟨bytes.toArray⟩ with
      | some s => Pure.pure s
      | none => MonadExcept.throw RunFault.invalidText : Scan String)
    (fun s rest => utf8Bytes s = bytes ∧ rest = []) := by
  split
  · next s hs =>
    refine (pure s).congr fun t rest => and_congr_left fun _ => ⟨?_, ?_⟩
    · rintro rfl
      exact utf8Bytes_of_fromUTF8? hs
    · rintro rfl
      rw [fromUTF8?_utf8Bytes] at hs
      exact Option.some.inj hs
  · next hs =>
    refine (throw _).congr fun t rest => ⟨False.elim, ?_⟩
    rintro ⟨rfl, _⟩
    rw [fromUTF8?_utf8Bytes] at hs
    cases hs

theorem text (n : Nat) :
    Parses (text n) (fun s bytes => bytes = utf8Bytes s ∧ bytes.length = n) := by
  refine ((take n).bind decoded).congr ?_
  intro s bytes
  constructor
  · rintro ⟨a, front, back, ⟨rfl, rfl⟩, ⟨rfl, rfl⟩, rfl⟩
    simp
  · rintro ⟨rfl, rfl⟩
    exact ⟨_, _, [], ⟨rfl, rfl⟩, ⟨rfl, rfl⟩, (List.append_nil _).symm⟩

theorem map (g : α → β) (h : Parses x spells) :
    Parses (do return g (← x)) (fun b bytes => ∃ a, b = g a ∧ spells a bytes) := by
  refine (h.bind fun a => pure (g a)).congr fun b bytes => ⟨?_, ?_⟩
  · rintro ⟨a, front, back, ha, ⟨hb, rfl⟩, rfl⟩
    exact ⟨a, hb, by rwa [List.append_nil]⟩
  · rintro ⟨a, hb, ha⟩
    exact ⟨a, bytes, [], ha, ⟨hb, rfl⟩, (List.append_nil _).symm⟩

theorem word (g : UInt64 → β) : Parses (do return g (UInt64.ofNat (← Scan.number 8)))
    (fun b bytes => ∃ w, b = g w ∧ bytes = littleEndian 8 w.toNat) := by
  refine ((number 8).map fun v => g (UInt64.ofNat v)).congr fun b bytes => ⟨?_, ?_⟩
  · rintro ⟨v, rfl, rfl, hv⟩
    have hnat : (UInt64.ofNat v).toNat = v := UInt64.toNat_ofNat_of_lt' (by simpa using hv)
    exact ⟨_, rfl, by rw [hnat]⟩
  · rintro ⟨w, rfl, rfl⟩
    refine ⟨w.toNat, by rw [UInt64.ofNat_toNat], rfl, ?_⟩
    have hlt := w.toNat_lt
    simpa using hlt

end Parses

/-- What stands behind the tag of a field. -/
def Payload : Nat → Field → Bytes → Prop
  | 0, .null, bytes => bytes = []
  | 1, .int n, bytes => bytes = littleEndian 8 n.toUInt64.toNat
  | 2, .float x, bytes => bytes = littleEndian 8 x.bits.toNat
  | 3, .string s, bytes => (utf8Bytes s).length < 0x100000000 ∧
      bytes = littleEndian 4 (utf8Bytes s).length ++ utf8Bytes s
  | _, _, _ => False

/-- The encoder writes the tag and the payload. -/
theorem encodeField_eq_ok_iff {f : Field} {bytes : Bytes} :
    RunFile.encodeField f = .ok bytes ↔
      ∃ tag payload, tag < 256 ∧ Payload tag f payload ∧ bytes = littleEndian 1 tag ++ payload := by
  constructor
  · intro h
    cases f with
    | null => exact ⟨0, [], by decide, rfl, (Except.ok.inj h).symm⟩
    | int n => exact ⟨1, _, by decide, rfl, (Except.ok.inj h).symm⟩
    | float x => exact ⟨2, _, by decide, rfl, (Except.ok.inj h).symm⟩
    | string s =>
      simp only [RunFile.encodeField] at h
      split at h
      · next hlt => exact ⟨3, _, by decide, ⟨hlt, rfl⟩, (Except.ok.inj h).symm⟩
      · cases h
  · rintro ⟨tag, payload, -, hpayload, rfl⟩
    rcases tag with _ | _ | _ | _ | tag <;> cases f <;> try exact hpayload.elim
    · rw [show payload = [] from hpayload]
      rfl
    · rw [show payload = _ from hpayload]
      rfl
    · rw [show payload = _ from hpayload]
      rfl
    · next s =>
      obtain ⟨hlt, rfl⟩ : (utf8Bytes s).length < 0x100000000 ∧
        payload = littleEndian 4 (utf8Bytes s).length ++ utf8Bytes s := hpayload
      simp only [RunFile.encodeField, hlt, if_true]
      rfl

namespace Parses

theorem stringPayload : Parses (do return .string (← Scan.text (← Scan.number 4)) : Scan Field)
    (Payload 3) := by
  refine ((number 4).bind fun n => (text n).map Field.string).congr fun f bytes => ⟨?_, ?_⟩
  · rintro ⟨n, front, back, ⟨rfl, hn⟩, ⟨s, rfl, rfl, rfl⟩, rfl⟩
    exact ⟨hn, rfl⟩
  · cases f with
    | string s =>
      rintro ⟨hlt, rfl⟩
      exact ⟨_, _, _, ⟨rfl, hlt⟩, ⟨s, rfl, rfl, rfl⟩, rfl⟩
    | _ => exact False.elim

/-- Each tag has a payload of its own, and the other numbers are no tags. -/
theorem payload (tag : Nat) : Parses
    (match tag with
      | 0 => Pure.pure .null
      | 1 => do return .int (UInt64.ofNat (← Scan.number 8)).toInt64
      | 2 => do return .float ⟨UInt64.ofNat (← Scan.number 8)⟩
      | 3 => do return .string (← Scan.text (← Scan.number 4))
      | tag => MonadExcept.throw (RunFault.unknownTag tag) : Scan Field)
    (Payload tag) := by
  rcases tag with _ | _ | _ | _ | tag
  · refine (pure Field.null).congr fun f bytes => ?_
    cases f <;> simp [Payload]
  · refine (word fun w => Field.int w.toInt64).congr fun f bytes => ⟨?_, ?_⟩
    · rintro ⟨w, rfl, rfl⟩
      rfl
    · cases f with
      | int n => exact fun h => ⟨n.toUInt64, rfl, h⟩
      | _ => exact False.elim
  · refine (word fun w => Field.float ⟨w⟩).congr fun f bytes => ⟨?_, ?_⟩
    · rintro ⟨w, rfl, rfl⟩
      rfl
    · cases f with
      | float x => exact fun h => ⟨x.bits, rfl, h⟩
      | _ => exact False.elim
  · exact stringPayload
  · exact (throw _).congr fun f bytes => by cases f <;> rfl

theorem field : Parses field (fun f bytes => RunFile.encodeField f = .ok bytes) := by
  refine ((number 1).bind payload).congr fun f bytes => ?_
  rw [encodeField_eq_ok_iff]
  constructor
  · rintro ⟨tag, front, back, ⟨rfl, htag⟩, hback, rfl⟩
    exact ⟨tag, back, htag, hback, rfl⟩
  · rintro ⟨tag, payload, htag, hpayload, rfl⟩
    exact ⟨tag, _, payload, ⟨rfl, htag⟩, hpayload, rfl⟩

theorem repeated {item : Scan α} {spells : α → Bytes → Prop} (h : Parses item spells) (n : Nat)
    (done : List α) : Parses (repeated item n done) (fun items bytes =>
      ∃ new pieces, items = done.reverse ++ new ∧ new.length = n ∧
        List.Forall₂ spells new pieces ∧ bytes = pieces.flatten) := by
  induction n generalizing done with
  | zero =>
    refine (pure done.reverse).congr fun items bytes => ⟨?_, ?_⟩
    · rintro ⟨rfl, rfl⟩
      exact ⟨[], [], (List.append_nil _).symm, rfl, .nil, rfl⟩
    · rintro ⟨new, pieces, rfl, hlength, hpieces, rfl⟩
      obtain rfl := List.length_eq_zero_iff.mp hlength
      obtain rfl := List.forall₂_nil_left_iff.mp hpieces
      exact ⟨List.append_nil _, rfl⟩
  | succ n ih =>
    refine (h.bind fun a => ih (a :: done)).congr fun items bytes => ⟨?_, ?_⟩
    · rintro ⟨a, front, back, ha, ⟨new, pieces, rfl, rfl, hpieces, rfl⟩, rfl⟩
      exact ⟨a :: new, front :: pieces, by simp, rfl, .cons ha hpieces, rfl⟩
    · rintro ⟨new, pieces, rfl, hlength, hpieces, rfl⟩
      cases hpieces with
      | nil => cases hlength
      | cons ha hpieces =>
        exact ⟨_, _, _, ha, ⟨_, _, by simp, Nat.succ.inj hlength, hpieces, rfl⟩, rfl⟩

theorem row : Parses row (fun row bytes => RunFile.encodeRow row = .ok bytes) := by
  refine ((number 2).bind fun count => field.repeated count []).congr fun row bytes => ?_
  rw [RunFile.encodeRow_eq_ok_iff]
  constructor
  · rintro ⟨count, front, back, ⟨rfl, hcount⟩, ⟨new, pieces, rfl, rfl, hpieces, rfl⟩, rfl⟩
    exact ⟨hcount, pieces, hpieces, rfl⟩
  · rintro ⟨hwidth, pieces, hpieces, rfl⟩
    exact ⟨_, _, _, ⟨rfl, hwidth⟩, ⟨row, pieces, rfl, rfl, hpieces, rfl⟩, rfl⟩

theorem header : Parses header (fun _ bytes => bytes = RunFile.header) := by
  have hversion : Parses
      (do
        let version ← Scan.number 2
        if version ≠ RunFile.version then
          MonadExcept.throw (RunFault.unsupportedVersion version) : Scan Unit)
      (fun _ bytes => bytes = littleEndian 2 RunFile.version) := by
    have hcheck : ∀ version : Nat, Parses
        (if version ≠ RunFile.version then
          MonadExcept.throw (RunFault.unsupportedVersion version) else Pure.pure () : Scan Unit)
        (fun _ bytes => version = RunFile.version ∧ bytes = []) := by
      intro version
      by_cases h : version = RunFile.version
      · simpa [h] using pure ()
      · simpa [h] using throw (RunFault.unsupportedVersion version)
    refine ((number 2).bind hcheck).congr fun a bytes => ⟨?_, ?_⟩
    · rintro ⟨version, front, back, ⟨rfl, -⟩, ⟨rfl, rfl⟩, rfl⟩
      exact List.append_nil _
    · rintro rfl
      exact ⟨_, _, [], ⟨rfl, by decide⟩, ⟨rfl, rfl⟩, (List.append_nil _).symm⟩
  have hmagic : ∀ bytes : Bytes, Parses
      (if bytes ≠ RunFile.magic then MonadExcept.throw RunFault.badMagic
        else do
          let version ← Scan.number 2
          if version ≠ RunFile.version then
            MonadExcept.throw (RunFault.unsupportedVersion version) : Scan Unit)
      (fun _ rest => bytes = RunFile.magic ∧ rest = littleEndian 2 RunFile.version) := by
    intro bytes
    by_cases h : bytes = RunFile.magic
    · simpa [h] using hversion
    · simpa [h] using throw RunFault.badMagic
  refine ((take 4).bind hmagic).congr fun a bytes => ⟨?_, ?_⟩
  · rintro ⟨magic, front, back, ⟨rfl, -⟩, ⟨rfl, rfl⟩, rfl⟩
    rfl
  · rintro rfl
    exact ⟨_, _, _, ⟨rfl, rfl⟩, ⟨rfl, rfl⟩, rfl⟩

end Parses

/-- The spellings of what stands where a batch may begin, for pages of a capacity. -/
def SpellsBatch (capacity : Nat) : Option Batch → Bytes → Prop
  | none, bytes => bytes = RunFile.terminator
  | some batch, bytes => batch.capacity = capacity ∧ batch.rows ≠ [] ∧ batch.length ≤ capacity ∧
      ∀ path, RunFile.encodeBatch path batch = .ok bytes

/-- The spellings of what stands behind a row count, for pages of a capacity. -/
def SpellsRows (capacity count : Nat) : Option Batch → Bytes → Prop
  | none, bytes => count = 0 ∧ bytes = []
  | some batch, bytes => count ≠ 0 ∧ count ≤ capacity ∧ batch.capacity = capacity ∧
      batch.length = count ∧ ∃ pieces,
        List.Forall₂ (fun row piece => RunFile.encodeRow row = .ok piece) batch.rows pieces ∧
          bytes = pieces.flatten

theorem Parses.rows (capacity count : Nat) : Parses
    (if count = 0 then Pure.pure none
      else if capacity < count then
        MonadExcept.throw (RunFault.batchExceedsPage count capacity)
      else do
        let rows ← Scan.repeated Scan.row count []
        Pure.pure (some ⟨capacity, rows⟩) : Scan (Option Batch))
    (SpellsRows capacity count) := by
  by_cases hzero : count = 0
  · simp only [hzero, if_true]
    refine (pure none).congr fun answer bytes => ?_
    cases answer <;> simp [SpellsRows]
  · by_cases hcapacity : capacity < count
    · simp only [hzero, if_false, hcapacity, if_true]
      refine (throw _).congr fun answer bytes => ?_
      cases answer with
      | none => exact iff_of_false not_false fun h => hzero h.1
      | some batch => exact iff_of_false not_false fun h => Nat.not_le_of_lt hcapacity h.2.1
    · simp only [hzero, if_false, hcapacity]
      refine ((row.repeated count []).map fun rows => some (⟨capacity, rows⟩ : Batch)).congr
        fun answer bytes => ?_
      cases answer with
      | none => simp [SpellsRows, hzero]
      | some batch =>
        constructor
        · rintro ⟨rows, hbatch, new, pieces, rfl, hlength, hpieces, rfl⟩
          obtain rfl := Option.some.inj hbatch
          exact ⟨hzero, by omega, rfl, hlength, pieces, hpieces, rfl⟩
        · rintro ⟨-, -, rfl, hlength, pieces, hpieces, rfl⟩
          exact ⟨batch.rows, rfl, batch.rows, pieces, rfl, hlength, hpieces, rfl⟩

theorem Parses.batch? (capacity : Nat) : Parses (batch? capacity) (SpellsBatch capacity) := by
  refine ((number 4).bind (rows capacity)).congr fun answer bytes => ?_
  cases answer with
  | none =>
    constructor
    · rintro ⟨count, front, back, ⟨rfl, -⟩, ⟨rfl, rfl⟩, rfl⟩
      exact List.append_nil _
    · rintro rfl
      exact ⟨0, _, [], ⟨rfl, by decide⟩, ⟨rfl, rfl⟩, (List.append_nil _).symm⟩
  | some batch =>
    constructor
    · rintro ⟨count, front, back, ⟨rfl, hcount⟩, ⟨hzero, hle, rfl, rfl, pieces, hpieces, rfl⟩, rfl⟩
      have hrows : batch.rows ≠ [] := fun h => hzero (by rw [Batch.length, h]; rfl)
      exact ⟨rfl, hrows, hle, fun path =>
        (RunFile.encodeBatch_eq_ok_iff hrows).mpr ⟨hcount, pieces, hpieces, rfl⟩⟩
    · rintro ⟨rfl, hrows, hle, hbytes⟩
      obtain ⟨hcount, pieces, hpieces, rfl⟩ := (RunFile.encodeBatch_eq_ok_iff hrows).mp (hbytes "")
      have hzero : batch.length ≠ 0 := fun h => hrows (List.length_eq_zero_iff.mp h)
      exact ⟨_, _, _, ⟨rfl, hcount⟩, ⟨hzero, hle, rfl, rfl, pieces, hpieces, rfl⟩, rfl⟩

end Scan

end PagedQuery
