import PagedQuery.Block

namespace PagedQuery

section Chunks

variable {α : Type} {n : Nat}

theorem takeChunks_of_le (hn : 0 < n) {xs : List α} {count : Nat} (h : xs.length ≤ count) :
    takeChunks n count xs = chunks n xs := by
  have hcounts : ∀ {count count' : Nat} {xs : List α}, xs.length ≤ count → xs.length ≤ count' →
      takeChunks n count xs = takeChunks n count' xs := by
    intro count
    induction count with
    | zero =>
      intro count' xs h _
      obtain rfl := List.length_eq_zero_iff.mp (Nat.le_zero.mp h)
      cases count' <;> rfl
    | succ count ih =>
      intro count' xs h h'
      cases xs with
      | nil => cases count' <;> rfl
      | cons x xs =>
        rw [List.length_cons] at h h'
        obtain ⟨count', rfl⟩ : ∃ k, count' = k + 1 := ⟨count' - 1, by omega⟩
        rw [takeChunks, takeChunks]
        congr 1
        exact ih (by rw [List.length_drop, List.length_cons]; omega)
          (by rw [List.length_drop, List.length_cons]; omega)
  exact hcounts h (Nat.le_refl _)

@[simp]
theorem chunks_nil : chunks n ([] : List α) = [] := rfl

theorem chunks?_of_pos (hn : 0 < n) (xs : List α) : chunks? n xs = some (chunks n xs) :=
  if_neg (Nat.ne_of_gt hn)

theorem chunks_of_ne_nil (hn : 0 < n) {xs : List α} (hxs : xs ≠ []) :
    chunks n xs = xs.take n :: chunks n (xs.drop n) := by
  cases xs with
  | nil => exact absurd rfl hxs
  | cons x xs =>
    rw [chunks, List.length_cons, takeChunks]
    congr 1
    exact takeChunks_of_le hn (by rw [List.length_drop, List.length_cons]; omega)

theorem chunks_append (hn : 0 < n) {front : List (List α)} (hfront : ∀ c ∈ front, c.length = n)
    (rest : List α) : chunks n (front.flatten ++ rest) = front ++ chunks n rest := by
  induction front with
  | nil => rfl
  | cons c front ih =>
    rw [List.forall_mem_cons] at hfront
    obtain ⟨hc, hfront⟩ := hfront
    have hne : c ++ (front.flatten ++ rest) ≠ [] := by
      intro h
      rw [(List.append_eq_nil_iff.mp h).1] at hc
      exact Nat.ne_of_gt hn hc.symm
    rw [List.flatten_cons, List.append_assoc, chunks_of_ne_nil hn hne, ← hc, List.take_left,
      List.drop_left, hc, ih hfront, List.cons_append]

theorem length_flatten_of_forall {parts : List (List α)} (h : ∀ part ∈ parts, part.length = n) :
    parts.flatten.length = parts.length * n := by
  induction parts with
  | nil => exact (Nat.zero_mul n).symm
  | cons part parts ih =>
    rw [List.forall_mem_cons] at h
    rw [List.flatten_cons, List.length_append, h.1, ih h.2, List.length_cons, Nat.succ_mul,
      Nat.add_comm]

theorem chunks_of_length_le (hn : 0 < n) {xs : List α} (hxs : xs ≠ []) (h : xs.length ≤ n) :
    chunks n xs = [xs] := by
  rw [chunks_of_ne_nil hn hxs, List.take_of_length_le h, List.drop_of_length_le h, chunks_nil]

/-- What holds of the chunks of a list can be shown by taking off one chunk after the other. -/
theorem chunks_induction (hn : 0 < n) {motive : List α → Prop} (nil : motive [])
    (step : ∀ xs, xs ≠ [] → motive (xs.drop n) → motive xs) (xs : List α) : motive xs := by
  induction hlength : xs.length using Nat.strongRecOn generalizing xs with
  | ind length ih =>
    by_cases hxs : xs = []
    · rw [hxs]
      exact nil
    · have hpos := List.length_pos_iff.mpr hxs
      exact step xs hxs (ih _ (by rw [List.length_drop]; omega) _ rfl)

theorem flatten_chunks (hn : 0 < n) (xs : List α) : (chunks n xs).flatten = xs := by
  induction xs using chunks_induction hn with
  | nil => rfl
  | step xs hxs ih =>
    rw [chunks_of_ne_nil hn hxs, List.flatten_cons, ih, List.take_append_drop]

theorem length_of_mem_chunks (hn : 0 < n) {xs c : List α} (h : c ∈ chunks n xs) :
    1 ≤ c.length ∧ c.length ≤ n := by
  induction xs using chunks_induction hn with
  | nil => cases h
  | step xs hxs ih =>
    rw [chunks_of_ne_nil hn hxs] at h
    rcases List.mem_cons.mp h with rfl | h
    · have hpos := List.length_pos_iff.mpr hxs
      rw [List.length_take]
      omega
    · exact ih h

theorem length_chunks_le_iff (hn : 0 < n) {xs : List α} {m : Nat} :
    (chunks n xs).length ≤ m ↔ xs.length ≤ m * n := by
  induction xs using chunks_induction hn generalizing m with
  | nil => simp
  | step xs hxs ih =>
    have hpos := List.length_pos_iff.mpr hxs
    rw [chunks_of_ne_nil hn hxs, List.length_cons]
    cases m with
    | zero => simp [hxs]
    | succ m =>
      rw [Nat.succ_le_succ_iff, ih, List.length_drop, Nat.succ_mul]
      omega

theorem chunks_map {β : Type} (hn : 0 < n) (f : α → β) (xs : List α) :
    chunks n (xs.map f) = (chunks n xs).map (List.map f) := by
  induction xs using chunks_induction hn with
  | nil => rfl
  | step xs hxs ih =>
    rw [chunks_of_ne_nil hn (by simpa using hxs), chunks_of_ne_nil hn hxs, List.map_cons,
      ← List.map_take, ← List.map_drop, ih]

theorem length_chunks_lt (hn : 2 ≤ n) {xs : List α} (hxs : 2 ≤ xs.length) :
    (chunks n xs).length < xs.length := by
  have hmul : xs.length ≤ (xs.length - 1) * n := by
    have := Nat.mul_le_mul_left (xs.length - 1) hn
    omega
  have hle := (length_chunks_le_iff (by omega)).mpr hmul
  omega

end Chunks

variable {capacity : Nat} {rest rows : List Row} {page : Draft}

theorem isFull_of_batch (h : page.batch = ⟨capacity, rest⟩) :
    page.isFull = decide (capacity ≤ rest.length) := by
  rw [← Draft.isFull_batch, h]
  rfl

theorem isEmpty_of_batch (h : page.batch = ⟨capacity, rest⟩) : page.isEmpty = rest.isEmpty := by
  rw [← Draft.isEmpty_batch, h]
  rfl

theorem exists_push? (h : page.batch = ⟨capacity, rest⟩) (hroom : rest.length < capacity)
    (row : Row) : ∃ page', page.push? row = some page' ∧ page'.batch = ⟨capacity, rest ++ [row]⟩ := by
  have hpush := page.map_batch_push? row
  have hfull : ¬Batch.isFull ⟨capacity, rest⟩ = true := fun hfull =>
    Nat.not_le_of_lt hroom (of_decide_eq_true hfull)
  rw [h, Batch.push?, if_neg hfull] at hpush
  obtain ⟨page', hpage', hbatch⟩ := Option.map_eq_some_iff.mp hpush
  exact ⟨page', hpage', hbatch⟩

theorem fill_of_room (role : PageRole) (h : page.batch = ⟨capacity, rest⟩)
    (hroom : rest.length + 1 < capacity) (row : Row) :
    ∃ page', page.fill role row = .ok (none, page') ∧ page'.batch = ⟨capacity, rest ++ [row]⟩ := by
  obtain ⟨page', hpush, hbatch⟩ := exists_push? h (by omega) row
  have hfull : page'.isFull = false := by simp [isFull_of_batch hbatch, hroom]
  exact ⟨page', by simp [Draft.fill, hpush, hfull], hbatch⟩

theorem fill_of_last {role : PageRole} (h : page.batch = ⟨capacity, rest⟩)
    (hlast : rest.length + 1 = capacity) (row : Row) :
    page.fill role row = .ok (some ⟨capacity, rest ++ [row]⟩, .empty capacity) := by
  obtain ⟨page', hpush, hbatch⟩ := exists_push? h (by omega) row
  have hfull : page'.isFull = true := by simp [isFull_of_batch hbatch, hlast]
  have hcapacity : page'.capacity = capacity := congrArg Batch.capacity hbatch
  simp [Draft.fill, hpush, hfull, hbatch, hcapacity]

namespace Batch

theorem capacityFor_of_le {pageSize rowSize : Nat} (h : 1 ≤ pageSize / rowSize) :
    capacityFor pageSize rowSize = .ok (pageSize / rowSize) := by
  have hrow : rowSize ≠ 0 := by
    intro hzero
    rw [hzero, Nat.div_zero] at h
    cases h
  rw [capacityFor, dif_neg hrow]
  exact if_neg (Nat.ne_of_gt h)

theorem of_capacityFor {pageSize rowSize : Nat} (h : capacityFor pageSize rowSize = .ok capacity) :
    capacity = pageSize / rowSize ∧ 0 < capacity := by
  unfold capacityFor at h
  split at h
  · cases h
  · split at h
    · cases h
    · next hmany =>
      obtain rfl := Except.ok.inj h
      exact ⟨rfl, Nat.pos_of_ne_zero hmany⟩

theorem pages_append (hc : 0 < capacity) {front : List (List Row)}
    (hfront : ∀ c ∈ front, c.length = capacity) (rest : List Row) :
    pages capacity (front.flatten ++ rest) = front.map (⟨capacity, ·⟩) ++ pages capacity rest := by
  rw [pages, chunks_append hc hfront, List.map_append, pages]

theorem pages_flatten (hc : 0 < capacity) {front : List (List Row)}
    (hfront : ∀ c ∈ front, c.length = capacity) :
    pages capacity front.flatten = front.map (⟨capacity, ·⟩) := by
  have happend := pages_append hc hfront []
  rwa [List.append_nil, pages, pages, chunks_nil, List.map_nil, List.append_nil] at happend

theorem pages_cons (hc : 0 < capacity) {front : List Row} (hfront : front.length = capacity)
    (rest : List Row) :
    pages capacity (front ++ rest) = ⟨capacity, front⟩ :: pages capacity rest := by
  have hall : ∀ c ∈ [front], c.length = capacity := by simpa using hfront
  simpa using pages_append hc hall rest

theorem nonempty?_eq_pages (hc : 0 < capacity) (h : rest.length ≤ capacity) :
    (nonempty? ⟨capacity, rest⟩).toList = pages capacity rest := by
  by_cases hrest : rest = []
  · subst hrest
    rfl
  · rw [pages, chunks_of_length_le hc hrest h]
    simp [nonempty?, isEmpty, hrest]

theorem of_pages_eq_cons (hc : 0 < capacity) {batch : Batch} {rest : List Batch}
    (h : pages capacity rows = batch :: rest) :
    nonempty? ⟨capacity, rows.take capacity⟩ = some batch ∧
      rest = pages capacity (rows.drop capacity) := by
  have hrows : rows ≠ [] := by
    rintro rfl
    cases h
  rw [pages, chunks_of_ne_nil hc hrows, List.map_cons] at h
  obtain ⟨rfl, rfl⟩ := List.cons.inj h
  have htake : rows.take capacity ≠ [] := by
    rw [ne_eq, List.take_eq_nil_iff]
    rintro (hzero | hnil)
    · omega
    · exact hrows hnil
  exact ⟨if_neg (by simpa [isEmpty] using htake), rfl⟩

theorem flatMap_rows_pages (hc : 0 < capacity) (rows : List Row) :
    (pages capacity rows).flatMap (·.rows) = rows := by
  rw [pages, List.flatMap_map, List.flatMap_id', flatten_chunks hc]

theorem mem_pages (hc : 0 < capacity) {batch : Batch}
    (h : batch ∈ pages capacity rows) : batch.capacity = capacity ∧ 1 ≤ batch.length ∧
      batch.length ≤ capacity ∧ batch.rows ⊆ rows ∧ batch.length ≤ rows.length := by
  obtain ⟨piece, hpiece, rfl⟩ := List.mem_map.mp h
  obtain ⟨hpos, hle⟩ := length_of_mem_chunks hc hpiece
  have hsublist : piece.Sublist rows := by
    have hflatten := List.sublist_flatten_of_mem hpiece
    rwa [flatten_chunks hc] at hflatten
  exact ⟨rfl, hpos, hle, hsublist.subset, hsublist.length_le⟩

theorem rows_ne_nil_of_mem_pages (hc : 0 < capacity) :
    ∀ batch ∈ pages capacity rows, batch.rows ≠ [] := fun _ hbatch =>
  List.ne_nil_of_length_pos (mem_pages hc hbatch).2.1

end Batch

namespace Schema

variable {schema : Schema} {pageSize : Nat}

theorem pageCapacity_of_le (h : 1 ≤ pageSize / schema.rowSize) :
    schema.pageCapacity pageSize = .ok (pageSize / schema.rowSize) := by
  rw [pageCapacity, Batch.capacityFor_of_le h]

theorem capacityFor_of_pageCapacity (h : schema.pageCapacity pageSize = .ok capacity) :
    Batch.capacityFor pageSize schema.rowSize = .ok capacity := by
  rw [pageCapacity] at h
  cases hsized : Batch.capacityFor pageSize schema.rowSize with
  | ok found =>
    rw [hsized] at h
    exact congrArg Except.ok (Except.ok.inj h)
  | error e =>
    rw [hsized] at h
    dsimp only at h
    split at h <;> cases h

theorem of_pageCapacity (h : schema.pageCapacity pageSize = .ok capacity) :
    capacity = pageSize / schema.rowSize ∧ 0 < capacity :=
  Batch.of_capacityFor (capacityFor_of_pageCapacity h)

end Schema

namespace Block

theorem add?_of_room {block : Block} (h : block.batches.length < block.maxPages) (batch : Batch) :
    block.add? batch = some { block with batches := block.batches ++ [batch] } := by
  have hfull : ¬block.isFull = true := fun hfull =>
    Nat.not_le_of_lt h (of_decide_eq_true hfull)
  rw [add?, if_neg hfull]

theorem add_of_room {block : Block} (h : block.batches.length < block.maxPages) (batch : Batch) :
    block.add batch = .ok { block with batches := block.batches ++ [batch] } := by
  rw [add, add?_of_room h]

/-- Packed rows stand on pages behind those that were in the block, if they all fit. -/
theorem packRows_eq (hc : 0 < capacity) (rows : List Row) {block : Block}
    (hcapacity : block.pageCapacity = capacity) (hpage : page.batch = ⟨capacity, rest⟩)
    (hrest : rest.length ≤ capacity)
    (hfit : block.batches.length + (Batch.pages capacity (rest ++ rows)).length ≤ block.maxPages) :
    ∃ block' page', rows.foldlM pack (block, page) = .ok (block', page') ∧
      (if page'.isEmpty then .ok block' else block'.add page'.batch) =
        .ok { block with batches := block.batches ++ Batch.pages capacity (rest ++ rows) } := by
  induction rows generalizing block page rest with
  | nil =>
    refine ⟨block, page, rfl, ?_⟩
    rw [List.append_nil] at hfit ⊢
    rw [isEmpty_of_batch hpage, hpage]
    cases rest with
    | nil => simp [Batch.pages]
    | cons first rest =>
      have hone := chunks_of_length_le hc (List.cons_ne_nil first rest) hrest
      rw [Batch.pages, hone] at hfit ⊢
      rw [if_neg (by simp), add_of_room hfit]
      rfl
  | cons row rows ih =>
    rw [List.foldlM_cons, pack]
    rcases Nat.lt_or_eq_of_le hrest with hroom | hfull
    · have hsplit : rest ++ row :: rows = rest ++ [row] ++ rows := by simp
      obtain ⟨page', hpush, hpage'⟩ := exists_push? hpage hroom row
      have hnot : page.isFull = false := by simp [isFull_of_batch hpage, hroom]
      rw [hsplit] at hfit ⊢
      obtain ⟨block'', page'', hfold, hadd⟩ := ih hcapacity hpage'
        (by rw [List.length_append]; exact hroom) hfit
      refine ⟨block'', page'', ?_, hadd⟩
      simp only [hnot, Bool.false_eq_true, if_false, hpush, Option.getD_some]
      exact hfold
    · -- The full page goes into the block, and the row begins the next one.
      have hpages : Batch.pages capacity (rest ++ row :: rows) =
          ⟨capacity, rest⟩ :: Batch.pages capacity ([] ++ [row] ++ rows) :=
        Batch.pages_cons hc hfull (row :: rows)
      have hmore : 0 < (Batch.pages capacity ([] ++ [row] ++ rows)).length := by
        rw [Batch.pages, chunks_of_ne_nil hc (by simp)]
        exact Nat.zero_lt_succ _
      rw [hpages, List.length_cons] at hfit
      let closed : Block := { block with batches := block.batches ++ [⟨capacity, rest⟩] }
      have hadd : block.add page.batch = .ok closed := by
        rw [hpage]
        exact add_of_room (by omega) _
      have hclosed : closed.batches.length + (Batch.pages capacity ([] ++ [row] ++ rows)).length ≤
          closed.maxPages := by
        have hlength : closed.batches.length = block.batches.length + 1 := List.length_append
        change _ ≤ block.maxPages
        omega
      obtain ⟨fresh, hpush, hfresh⟩ := exists_push? (Draft.batch_empty capacity) hc row
      have hisFull : page.isFull = true := by simp [isFull_of_batch hpage, hfull]
      have hsame : closed.pageCapacity = capacity := hcapacity
      obtain ⟨block'', page'', hfold, hlast⟩ := ih hsame hfresh hc hclosed
      refine ⟨block'', page'', ?_, ?_⟩
      · simp only [hisFull, if_true, hadd, bind, Except.bind, pure, Except.pure, hsame, hpush,
          Option.getD_some]
        exact hfold
      · rw [hlast, hpages]
        simp [closed]

theorem ofSorted_eq (hc : 0 < capacity) {maxPages : Nat}
    (hblock : fitsMemory maxPages pageRoom = true)
    (hpage : fitsMemory capacity Batch.rowRoom = true) (hfit : rows.length ≤ maxPages * capacity) :
    ofSorted maxPages capacity rows = .ok ⟨maxPages, capacity, Batch.pages capacity rows⟩ := by
  have hlength : (Batch.pages capacity rows).length ≤ maxPages := by
    rw [Batch.pages, List.length_map]
    exact (length_chunks_le_iff hc).mpr hfit
  have hroom : (empty maxPages capacity).batches.length + (Batch.pages capacity ([] ++ rows)).length ≤
      (empty maxPages capacity).maxPages := by
    simpa [empty] using hlength
  obtain ⟨block, page, hfold, hadd⟩ :=
    packRows_eq hc rows rfl (Draft.batch_empty capacity) (Nat.zero_le _) hroom
  simp only [ofSorted, reserve, if_pos hblock, Draft.reserve_of_fitsMemory hpage, bind, Except.bind,
    hfold, Failure.ofExcept]
  split at hadd
  · next hempty =>
    rw [if_pos hempty, Except.ok.inj hadd]
    rfl
  · next hempty =>
    rw [if_neg hempty, hadd]
    rfl

end Block

end PagedQuery
