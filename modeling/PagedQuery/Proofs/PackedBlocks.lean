import PagedQuery.Proofs.PackedPages

/-!
# Packing rows into blocks

Rows that fit into the pages of a block are packed in their order, on pages of which only the last
may have room left, and rows that do not fit are an overflow. A page without capacity takes no
row. Each row then costs such a page, and all rows are dropped as long as there are pages enough.
-/

namespace PagedQuery
namespace Block

variable {block : Block} {page : Draft} {maxPages capacity : Nat} {rest rows : List Row}

/-- Whether a block holds these rows in their order, on pages that are full but for the last. -/
structure Packs (block : Block) (maxPages capacity : Nat) (rows : List Row) : Prop where
  maxPages_eq : block.maxPages = maxPages
  pageCapacity_eq : block.pageCapacity = capacity
  rows_eq : block.rows = rows
  count : block.batches.length ≤ maxPages
  fits : ∀ page ∈ block.batches, page.capacity = capacity ∧ page.rows ≠ [] ∧ page.length ≤ capacity
  full : ∀ page ∈ block.batches.dropLast, page.length = capacity

/-- Whether there is room in memory for the pages of a block and for the rows of a page. -/
def HasRoom (maxPages capacity : Nat) : Prop :=
  fitsMemory maxPages pageRoom = true ∧ fitsMemory capacity Batch.rowRoom = true

instance (maxPages capacity : Nat) : Decidable (HasRoom maxPages capacity) :=
  inferInstanceAs (Decidable (_ ∧ _))

/-- A block with the open page behind the others, unless that is empty. -/
def close (blockAndPage : Block × Draft) : Except Error Block :=
  if blockAndPage.2.isEmpty then .ok blockAndPage.1 else blockAndPage.1.add blockAndPage.2.batch

theorem add_of_full (h : block.maxPages ≤ block.batches.length) (batch : Batch) :
    block.add batch = .error (.blockOverflow block.maxPages) := by
  have hfull : block.isFull = true := decide_eq_true h
  rw [add, add?, if_pos hfull]

/-- Pages that are full but for the last are the rows cut into pages. -/
theorem eq_pages_of_full (hc : 0 < capacity) {batches : List Batch}
    (hfits : ∀ page ∈ batches, page.capacity = capacity ∧ page.rows ≠ [] ∧ page.length ≤ capacity)
    (hfull : ∀ page ∈ batches.dropLast, page.length = capacity) :
    batches = Batch.pages capacity (batches.flatMap (·.rows)) := by
  induction batches with
  | nil => rfl
  | cons page batches ih =>
    rw [List.forall_mem_cons] at hfits
    obtain ⟨⟨hcapacity, hrows, hlength⟩, hfits⟩ := hfits
    obtain rfl := hcapacity
    cases batches with
    | nil =>
      rw [List.flatMap_singleton, Batch.pages, chunks_of_length_le hc hrows hlength]
      rfl
    | cons next batches =>
      rw [List.dropLast_cons_of_ne_nil (List.cons_ne_nil _ _), List.forall_mem_cons] at hfull
      have hrest := ih hfits hfull.2
      rw [List.flatMap_cons, Batch.pages_cons hc hfull.1, ← hrest]

theorem Packs.eq (hc : 0 < capacity) (h : block.Packs maxPages capacity rows) :
    block = ⟨maxPages, capacity, Batch.pages capacity rows⟩ := by
  obtain ⟨hmaxPages, hcapacity, hrows, -, hfits, hfull⟩ := h
  have hbatches := eq_pages_of_full hc hfits hfull
  rw [show block.batches.flatMap (·.rows) = rows from hrows] at hbatches
  rcases block with ⟨maxPages', capacity', batches⟩
  obtain rfl : maxPages' = maxPages := hmaxPages
  obtain rfl : capacity' = capacity := hcapacity
  exact congrArg _ hbatches

theorem packs_pages (hc : 0 < capacity) (hfit : rows.length ≤ maxPages * capacity) :
    (⟨maxPages, capacity, Batch.pages capacity rows⟩ : Block).Packs maxPages capacity rows where
  maxPages_eq := rfl
  pageCapacity_eq := rfl
  rows_eq := Batch.flatMap_rows_pages hc rows
  count := by
    rw [Batch.pages, List.length_map]
    exact (length_chunks_le_iff hc).mpr hfit
  fits page hpage := by
    obtain ⟨hcapacity, -, hlength, -, -⟩ := Batch.mem_pages hc hpage
    exact ⟨hcapacity, Batch.rows_ne_nil_of_mem_pages hc page hpage, hlength⟩
  full _ hpage := Batch.length_of_mem_dropLast_pages hc hpage

theorem pack_of_spare (hpage : page.batch = ⟨capacity, rest⟩) (hspare : rest.length < capacity)
    (block : Block) (row : Row) :
    ∃ page', pack (block, page) row = .ok (block, page') ∧
      page'.batch = ⟨capacity, rest ++ [row]⟩ := by
  obtain ⟨page', hpush, hpage'⟩ := exists_push? hpage hspare row
  have hnot : page.isFull = false := by simp [isFull_of_batch hpage, hspare]
  refine ⟨page', ?_, hpage'⟩
  simp only [pack, hnot, Bool.false_eq_true, if_false, hpush, Option.getD_some]
  rfl

theorem pack_of_full (hpage : page.isFull = true) (hroom : block.batches.length < block.maxPages)
    (row : Row) :
    pack (block, page) row = .ok ({ block with batches := block.batches ++ [page.batch] },
      ((Draft.empty block.pageCapacity).push? row).getD (.empty block.pageCapacity)) := by
  simp only [pack, hpage, if_true, add_of_room hroom]
  rfl

theorem pack_of_full_block (hpage : page.isFull = true)
    (hfull : block.maxPages ≤ block.batches.length) (row : Row) :
    pack (block, page) row = .error (.blockOverflow block.maxPages) := by
  simp only [pack, hpage, if_true, add_of_full hfull]
  rfl

/-- Packing rows overflows if with those of the open page they take more pages than are left. -/
theorem packRows_of_overflow (hc : 0 < capacity) (rows : List Row)
    (hcapacity : block.pageCapacity = capacity) (hpage : page.batch = ⟨capacity, rest⟩)
    (hrest : rest.length ≤ capacity) (hroom : block.batches.length ≤ block.maxPages)
    (hover : block.maxPages < block.batches.length + (Batch.pages capacity (rest ++ rows)).length) :
    rows.foldlM pack (block, page) >>= close = .error (.blockOverflow block.maxPages) := by
  induction rows generalizing block page rest with
  | nil =>
    rw [List.append_nil] at hover
    have hne : rest ≠ [] := by
      rintro rfl
      exact Nat.not_lt_of_le hroom hover
    rw [Batch.pages, chunks_of_length_le hc hne hrest, List.map_singleton,
      List.length_singleton] at hover
    have hempty : page.isEmpty = false := by simp [isEmpty_of_batch hpage, hne]
    have hfull : block.maxPages ≤ block.batches.length := Nat.le_of_lt_succ hover
    change close (block, page) = _
    rw [close, hempty, if_neg Bool.false_ne_true, add_of_full hfull]
  | cons row rows ih =>
    rw [List.foldlM_cons, bind_assoc]
    rcases Nat.lt_or_eq_of_le hrest with hspare | hfull
    · obtain ⟨page', hpack, hpage'⟩ := pack_of_spare hpage hspare block row
      have hsplit : rest ++ row :: rows = rest ++ [row] ++ rows := by simp
      rw [hsplit] at hover
      rw [hpack]
      exact ih hcapacity hpage' (by rw [List.length_append]; exact hspare) hroom hover
    · have hisFull : page.isFull = true := by simp [isFull_of_batch hpage, hfull]
      -- The full page has to go into the block before the row begins another one.
      rcases Nat.lt_or_eq_of_le hroom with hspare | hlast
      · have hpages : Batch.pages capacity (rest ++ row :: rows) =
            ⟨capacity, rest⟩ :: Batch.pages capacity ([] ++ [row] ++ rows) :=
          Batch.pages_cons hc hfull (row :: rows)
        rw [hpages, List.length_cons] at hover
        obtain ⟨fresh, hpush, hfresh⟩ := exists_push? (Draft.batch_empty capacity) hc row
        rw [pack_of_full hisFull hspare, hcapacity, hpush, Option.getD_some]
        have hclosed :
            (⟨block.maxPages, capacity, block.batches ++ [page.batch]⟩ : Block).pageCapacity =
              capacity := rfl
        refine ih hclosed hfresh hc ?_ ?_
        · rw [List.length_append]
          exact hspare
        · rw [List.length_append, List.length_singleton]
          dsimp only
          omega
      · rw [pack_of_full_block hisFull (Nat.le_of_eq hlast.symm)]
        rfl

/-- Each row that is packed into pages without capacity takes one of them and is dropped. -/
theorem packRows_of_no_capacity (rows : List Row) {batches : List Batch}
    (hroom : batches.length ≤ maxPages) :
    rows.foldlM pack (⟨maxPages, 0, batches⟩, .empty 0) =
      if batches.length + rows.length ≤ maxPages then
        .ok (⟨maxPages, 0, batches ++ List.replicate rows.length (.empty 0)⟩, .empty 0)
      else .error (.blockOverflow maxPages) := by
  induction rows generalizing batches with
  | nil => simp [hroom, pure, Except.pure]
  | cons row rows ih =>
    have hisFull : (Draft.empty 0).isFull = true := rfl
    rw [List.foldlM_cons, List.length_cons]
    rcases Nat.lt_or_eq_of_le hroom with hspare | hlast
    · have hcount : (batches ++ [Batch.empty 0]).length = batches.length + 1 := List.length_append
      have hrest := ih (Nat.le_trans (Nat.le_of_eq hcount) hspare)
      rw [hcount, List.append_assoc, List.singleton_append, ← List.replicate_succ, Nat.add_assoc,
        Nat.add_comm 1] at hrest
      rw [pack_of_full hisFull hspare]
      exact hrest
    · rw [pack_of_full_block hisFull (Nat.le_of_eq hlast.symm), if_neg (by omega)]
      rfl

theorem ofSorted_of_hasRoom (h : HasRoom maxPages capacity) (rows : List Row) :
    ofSorted maxPages capacity rows =
      Failure.ofExcept (rows.foldlM pack (empty maxPages capacity, .empty capacity) >>= close) := by
  rw [ofSorted, reserve, if_pos h.1, Draft.reserve_of_fitsMemory h.2]
  cases hfold : rows.foldlM pack (empty maxPages capacity, .empty capacity) with
  | error e =>
    simp only [bind, Except.bind, hfold, Failure.ofExcept]
  | ok packed =>
    simp only [bind, Except.bind, hfold, Failure.ofExcept, close]
    split <;> rfl

theorem ofSorted_of_not_hasRoom (h : ¬HasRoom maxPages capacity) (rows : List Row) :
    ofSorted maxPages capacity rows = .error .outOfMemory := by
  rw [ofSorted, reserve]
  by_cases hblock : fitsMemory maxPages pageRoom = true
  · have hpage : ¬fitsMemory capacity Batch.rowRoom = true := fun hpage => h ⟨hblock, hpage⟩
    rw [if_pos hblock, Draft.reserve, Batch.reserve, if_neg hpage]
    rfl
  · rw [if_neg hblock]
    rfl

theorem ofSorted_of_overflow (h : HasRoom maxPages capacity) (hc : 0 < capacity)
    (hover : maxPages * capacity < rows.length) :
    ofSorted maxPages capacity rows = .error (.error (.blockOverflow maxPages)) := by
  have hpages : maxPages < (Batch.pages capacity rows).length := by
    rw [← Nat.not_le, Batch.pages, List.length_map, length_chunks_le_iff hc]
    exact Nat.not_le_of_lt hover
  have hnone : (empty maxPages capacity).batches.length = 0 := rfl
  have hfold :=
    packRows_of_overflow hc rows (rfl : (empty maxPages capacity).pageCapacity = capacity)
    (Draft.batch_empty capacity) (Nat.zero_le _) (Nat.zero_le _)
    (by rw [hnone, Nat.zero_add, List.nil_append]; exact hpages)
  rw [ofSorted_of_hasRoom h, hfold]
  rfl

theorem ofSorted_of_no_capacity (h : HasRoom maxPages 0) (rows : List Row) :
    ofSorted maxPages 0 rows =
      if rows.length ≤ maxPages then .ok ⟨maxPages, 0, List.replicate rows.length (.empty 0)⟩
      else .error (.error (.blockOverflow maxPages)) := by
  have hnone : ([] : List Batch).length ≤ maxPages := Nat.zero_le maxPages
  have hfold := packRows_of_no_capacity rows hnone
  rw [List.length_nil, Nat.zero_add, List.nil_append] at hfold
  rw [ofSorted_of_hasRoom h, empty, hfold]
  by_cases hfit : rows.length ≤ maxPages
  · rw [if_pos hfit, if_pos hfit]
    rfl
  · rw [if_neg hfit, if_neg hfit]
    rfl

/-- What becomes of rows that are repacked. Without room in memory there is no block. Otherwise
pages with a capacity take all rows that they have room for, in their order and on pages that are
full but for the last; any more rows are an overflow. Pages without capacity count for one row
each, and what comes out is a block of such pages, without the rows. -/
theorem repacks_rows (maxPages capacity : Nat) (rows : List Row) :
    (∀ block, ofSorted maxPages capacity rows = .ok block ↔ HasRoom maxPages capacity ∧
      (0 < capacity ∧ block.Packs maxPages capacity rows ∨
        capacity = 0 ∧ rows.length ≤ maxPages ∧
          block = ⟨maxPages, 0, List.replicate rows.length (.empty 0)⟩)) ∧
    ((∃ block, ofSorted maxPages capacity rows = .ok block) ↔
      HasRoom maxPages capacity ∧ rows.length ≤ maxPages * max 1 capacity) ∧
    (ofSorted maxPages capacity rows = .error (.error (.blockOverflow maxPages)) ↔
      HasRoom maxPages capacity ∧ maxPages * max 1 capacity < rows.length) ∧
    (ofSorted maxPages capacity rows = .error .outOfMemory ↔ ¬HasRoom maxPages capacity) := by
  by_cases hroom : HasRoom maxPages capacity
  · rcases Nat.eq_zero_or_pos capacity with rfl | hc
    · rw [ofSorted_of_no_capacity hroom, Nat.max_eq_left (Nat.zero_le 1), Nat.mul_one]
      by_cases hfit : rows.length ≤ maxPages
      · have hover : ¬maxPages < rows.length := Nat.not_lt_of_le hfit
        simp [hroom, hfit, hover, eq_comm]
      · have hover : maxPages < rows.length := Nat.lt_of_not_le hfit
        simp [hroom, hfit, hover]
    · rw [Nat.max_eq_right hc]
      have hpacks (block : Block) (h : block.Packs maxPages capacity rows) :
          rows.length ≤ maxPages * capacity := by
        have hcount := h.count
        rw [h.eq hc, Batch.pages, List.length_map] at hcount
        exact (length_chunks_le_iff hc).mp hcount
      by_cases hfit : rows.length ≤ maxPages * capacity
      · have hover : ¬maxPages * capacity < rows.length := Nat.not_lt_of_le hfit
        rw [ofSorted_eq hc hroom.1 hroom.2 hfit]
        refine ⟨fun block => ⟨?_, ?_⟩, by simp [hroom, hfit], by simp [hover], by simp [hroom]⟩
        · rintro hblock
          obtain rfl := Except.ok.inj hblock
          exact ⟨hroom, .inl ⟨hc, packs_pages hc hfit⟩⟩
        · rintro ⟨-, ⟨-, hblock⟩ | ⟨rfl, -⟩⟩
          · rw [hblock.eq hc]
          · exact absurd hc (Nat.lt_irrefl 0)
      · have hover : maxPages * capacity < rows.length := Nat.lt_of_not_le hfit
        rw [ofSorted_of_overflow hroom hc hover]
        refine ⟨fun block => ⟨?_, ?_⟩, by simp [hfit], by simp [hroom, hover], by simp [hroom]⟩
        · intro hblock
          cases hblock
        · rintro ⟨-, ⟨-, hblock⟩ | ⟨rfl, -⟩⟩
          · exact absurd (hpacks block hblock) hfit
          · exact absurd hc (Nat.lt_irrefl 0)
  · simp [ofSorted_of_not_hasRoom hroom, hroom]

/-- A row that a block of one page without capacity has no room for is dropped without an error. -/
theorem drops_row_without_capacity :
    ¬[[Field.int 1]].length ≤ 1 * 0 ∧
      ∃ block, ofSorted 1 0 [[.int 1]] = .ok block ∧ block.rows = [] :=
  ⟨by decide, _, rfl, rfl⟩

end Block
end PagedQuery
