import PagedQuery.Operator.Join
import PagedQuery.Proofs.CursorPages

namespace PagedQuery

/-- Whether two operators give the same pages in the same states. They may start, open and close in
different ways. -/
structure Cursor.ReadsAs {σ : Type} (c c' : Cursor σ) : Prop where
  next : c.next = c'.next
  volume : c.volume = c'.volume

theorem Cursor.Supplies.congr {σ : Type} {c c' : Cursor σ} (h : c.ReadsAs c') {root : TempRoot}
    {P : σ → Prop} {s : σ} {batches : List Batch} (hs : c.Supplies root P s batches) :
    c'.Supplies root P s batches := by
  induction hs with
  | ended hnext hafter => exact .ended (h.next ▸ hnext) hafter
  | page hnext hrows hafter hrest ih => exact .page (h.next ▸ hnext) hrows hafter ih

namespace Join
namespace Side

variable {σ : Type} {c : Cursor σ} {root : TempRoot} {P : σ → Prop} {side : Side σ}
  {batches : List Batch} {rows : List Row} {row : Row}

/-- Whether a side stands before these rows, with an input in a state of a kind. -/
inductive IsAt (c : Cursor σ) (root : TempRoot) (P : σ → Prop) : Side σ → List Row → Prop
  | ended {source : σ} {index : Nat} (hsource : P source) : IsAt c root P ⟨source, none, index⟩ []
  | reading {source : σ} {page : Batch} {index : Nat} {batches : List Batch} (hsource : P source)
      (hindex : index < page.length) (hsupplies : c.Supplies root P source batches) :
      IsAt c root P ⟨source, some page, index⟩
        (page.rows.drop index ++ batches.flatMap (·.rows))

theorem settle_congr {c' : Cursor σ} (h : c.ReadsAs c') (steps : Nat) :
    settle c steps = settle c' steps := by
  induction steps with
  | zero => rfl
  | succ steps ih => simp only [settle, h.next, ih]

theorem advance_congr {c' : Cursor σ} (h : c.ReadsAs c') : advance c = advance c' := by
  simp only [advance, h.volume, settle_congr h]

theorem gives_onSource {α : Type} {x : Act σ α} {a : α} {t : σ} (hx : x.Gives root side.source a t) :
    (onSource x).Gives root side a { side with source := t } :=
  hx.within

theorem IsAt.source (h : IsAt c root P side rows) : P side.source := by
  cases h with
  | ended hsource => exact hsource
  | reading hsource => exact hsource

theorem IsAt.row?_eq (h : IsAt c root P side rows) : side.row? = rows.head? := by
  cases h with
  | ended => rfl
  | @reading source page index batches _ hindex =>
    have hdrop := List.drop_eq_getElem_cons hindex
    rw [hdrop]
    exact List.getElem?_eq_getElem hindex

theorem IsAt.index_lt (h : IsAt c root P side rows) {page : Batch} (hpage : side.page = some page) :
    side.index < page.length := by
  cases h with
  | ended => cases hpage
  | reading _ hindex => exact Option.some.inj hpage ▸ hindex

/-- What a side reckons with covers the rows that are left. -/
theorem IsAt.length_le (h : IsAt c root P side rows) : rows.length ≤ side.remaining c := by
  cases h with
  | ended => exact Nat.zero_le _
  | @reading source page index batches _ _ hsupplies =>
    have hle := hsupplies.length_le
    simp only [remaining, Option.elim, Batch.length, List.length_append, List.length_drop]
    omega

theorem isAt_of_supplies {s t : σ} {answer : Option Batch} (h : c.Supplies root P s batches)
    (hnext : c.next.Gives root s answer t) :
    IsAt c root P ⟨t, answer, 0⟩ (batches.flatMap (·.rows)) := by
  cases h with
  | ended hended hafter =>
    obtain ⟨rfl, rfl⟩ := hended.unique hnext
    exact .ended hafter
  | page hpage hrows hafter hrest =>
    obtain ⟨rfl, rfl⟩ := hpage.unique hnext
    exact .reading hafter (List.length_pos_iff.mpr hrows) hrest

theorem exists_gives_of_supplies {s : σ} (h : c.Supplies root P s batches) :
    ∃ answer t, c.next.Gives root s answer t := by
  cases h with
  | ended hended => exact ⟨_, _, hended⟩
  | page hpage => exact ⟨_, _, hpage⟩

theorem exists_gives_load (side : Side σ) (h : c.Supplies root P side.source batches)
    (hindex : side.index = 0) :
    ∃ side', IsAt c root P side' (batches.flatMap (·.rows)) ∧ (load c).Gives root side () side' := by
  obtain ⟨answer, t, hnext⟩ := exists_gives_of_supplies h
  refine ⟨⟨t, answer, 0⟩, isAt_of_supplies h hnext, ?_⟩
  rw [← hindex]
  exact (gives_onSource hnext).bind (Act.gives_modify _)

theorem IsAt.gives_settle (h : IsAt c root P side rows) (steps : Nat) :
    (settle c (steps + 1)).Gives root side () side := by
  refine Act.gives_get_bind.mpr ?_
  cases h with
  | ended => exact Act.gives_pure
  | reading _ hindex =>
    dsimp only
    rw [if_pos hindex]
    exact Act.gives_pure

theorem IsAt.exists_gives_advance (h : IsAt c root P side (row :: rows)) :
    ∃ side', IsAt c root P side' rows ∧ (advance c).Gives root side () side' := by
  generalize hall : row :: rows = all at h
  cases h with
  | ended => cases hall
  | @reading source page index batches hsource hindex hsupplies =>
    have hdrop := List.drop_eq_getElem_cons hindex
    rw [hdrop, List.cons_append] at hall
    obtain ⟨-, rfl⟩ := List.cons.inj hall
    let moved : Side σ := ⟨source, some page, index + 1⟩
    rcases Nat.lt_or_eq_of_le (Nat.succ_le_of_lt hindex) with hmore | hlast
    · have hmoved : IsAt c root P moved (page.rows.drop (index + 1) ++ batches.flatMap (·.rows)) :=
        .reading hsource hmore hsupplies
      refine ⟨moved, hmoved, ?_⟩
      exact (Act.gives_modify _).bind (Act.gives_get_bind.mpr (hmoved.gives_settle _))
    · obtain ⟨answer, t, hnext⟩ := exists_gives_of_supplies hsupplies
      have hmoved := isAt_of_supplies hsupplies hnext
      have hnone : page.rows.drop (index + 1) = [] := List.drop_of_length_le (Nat.le_of_eq hlast.symm)
      rw [hnone, List.nil_append]
      refine ⟨_, hmoved, (Act.gives_modify _).bind (Act.gives_get_bind.mpr ?_)⟩
      have hfetch : (onSource c.next).Gives root moved answer { moved with source := t } :=
        gives_onSource hnext
      refine Act.gives_get_bind.mpr ?_
      dsimp only
      rw [if_neg (by omega)]
      exact hfetch.bind ((Act.gives_modify _).bind (hmoved.gives_settle _))

end Side
end Join
end PagedQuery
