import PagedQuery.Operator.MergeSort.Runs

namespace PagedQuery

theorem toDigits_injective {m n : Nat} (h : Nat.toDigits 10 m = Nat.toDigits 10 n) : m = n := by
  have hread := congrArg (fun digits => Nat.ofDigitChars 10 digits 0) h
  simpa [Nat.ofDigitChars_toDigits] using hread

theorem toList_toString (n : Nat) : (toString n).toList = Nat.toDigits 10 n :=
  Nat.toList_repr

/-- A number ends at the first dash behind it. -/
theorem append_dash_inj {xs xs' ys ys' : List Char} (hxs : '-' ∉ xs) (hxs' : '-' ∉ xs')
    (h : xs ++ '-' :: ys = xs' ++ '-' :: ys') : xs = xs' ∧ ys = ys' := by
  induction xs generalizing xs' with
  | nil =>
    cases xs' with
    | nil => exact ⟨rfl, (List.cons.inj h).2⟩
    | cons x' xs' =>
      obtain ⟨rfl, -⟩ := List.cons.inj h
      exact absurd List.mem_cons_self hxs'
  | cons x xs ih =>
    cases xs' with
    | nil =>
      obtain ⟨rfl, -⟩ := List.cons.inj h
      exact absurd List.mem_cons_self hxs
    | cons x' xs' =>
      obtain ⟨rfl, hrest⟩ := List.cons.inj h
      obtain ⟨rfl, hys⟩ := ih (fun hmem => hxs (List.mem_cons_of_mem x hmem))
        (fun hmem => hxs' (List.mem_cons_of_mem x hmem)) hrest
      exact ⟨rfl, hys⟩

theorem dash_not_mem_toDigits (n : Nat) : '-' ∉ Nat.toDigits 10 n := by
  intro hmem
  have hdigit := Nat.isDigit_of_mem_toDigits (by decide) (by decide) hmem
  revert hdigit
  decide

namespace SortSpec

variable {spec : SortSpec}

theorem toList_runName (spec : SortSpec) (n : Nat) :
    (spec.runName n).toList = spec.stem.toList ++ ("-run-".toList ++ Nat.toDigits 10 n) := by
  rw [runName, String.toList_append, String.toList_append, toList_toString, List.append_assoc]

theorem toList_mergeName (spec : SortSpec) (p g : Nat) :
    (spec.mergeName p g).toList = spec.stem.toList ++
      ("-merge-".toList ++ (Nat.toDigits 10 p ++ '-' :: Nat.toDigits 10 g)) := by
  simp only [mergeName, String.toList_append, toList_toString, List.append_assoc]
  rfl

theorem runName_inj {m n : Nat} (h : spec.runName m = spec.runName n) : m = n := by
  have hlist := congrArg String.toList h
  rw [toList_runName, toList_runName] at hlist
  exact toDigits_injective (List.append_cancel_left (List.append_cancel_left hlist))

theorem mergeName_inj {p g p' g' : Nat} (h : spec.mergeName p g = spec.mergeName p' g') :
    p = p' ∧ g = g' := by
  have hlist := congrArg String.toList h
  rw [toList_mergeName, toList_mergeName] at hlist
  obtain ⟨hp, hg⟩ := append_dash_inj (dash_not_mem_toDigits p) (dash_not_mem_toDigits p')
    (List.append_cancel_left (List.append_cancel_left hlist))
  exact ⟨toDigits_injective hp, toDigits_injective hg⟩

theorem runName_ne_mergeName (n p g : Nat) : spec.runName n ≠ spec.mergeName p g := by
  intro h
  have hlist := congrArg String.toList h
  rw [toList_runName, toList_mergeName] at hlist
  have hletters := congrArg (fun cs : List Char => cs[1]?) (List.append_cancel_left hlist)
  revert hletters
  simp

end SortSpec

end PagedQuery
