import PagedQuery.Bytes

/-!
# Bytes on their way from a file

An `Input` is a file being read: the bytes that were fetched already and those still in the file.
Bytes are fetched in blocks, so what is fetched stays as it was when the file changes, and only what
is fetched later shows the change.
-/

namespace PagedQuery

/-- The bytes of a file that have not been taken yet. -/
structure Input where
  fetched : Bytes
  rest : Bytes
  deriving DecidableEq, Repr

namespace Input

/-- How many bytes are fetched at a time, unless more are wanted. -/
def blockSize : Nat := 8192

def ofContent (content : Bytes) : Input := ⟨[], content⟩

def unread (i : Input) : Bytes := i.fetched ++ i.rest

def length (i : Input) : Nat := i.fetched.length + i.rest.length

/-- The first `n` items of a list and the others, if it has so many. -/
def split? {α : Type} : Nat → List α → Option (List α × List α)
  | 0, xs => some ([], xs)
  | _ + 1, [] => none
  | n + 1, x :: xs => (split? n xs).map fun (front, rest) => (x :: front, rest)

/-- Takes `n` bytes, for which more are fetched if need be. Where the file ends before them,
everything is gone. -/
def take? (n : Nat) (i : Input) : Option Bytes × Input :=
  match split? n i.fetched with
  | some (front, fetched) => (some front, ⟨fetched, i.rest⟩)
  | none =>
    let missing := n - i.fetched.length
    let size := max missing blockSize
    match split? missing (i.rest.take size) with
    | some (front, fetched) => (some (i.fetched ++ front), ⟨fetched, i.rest.drop size⟩)
    | none => (none, ⟨[], []⟩)

@[simp]
theorem unread_ofContent (content : Bytes) : (ofContent content).unread = content := rfl

@[simp]
theorem length_unread (i : Input) : i.unread.length = i.length := by
  simp [unread, length]

theorem split?_eq {α : Type} (n : Nat) (xs : List α) :
    split? n xs = if n ≤ xs.length then some (xs.take n, xs.drop n) else none := by
  induction n generalizing xs with
  | zero => simp [split?]
  | succ n ih =>
    cases xs with
    | nil => simp [split?]
    | cons x xs =>
      rw [split?, ih]
      by_cases h : n ≤ xs.length <;> simp [h]

/-- Taking bytes takes them off the front of what is unread, however they are fetched. -/
theorem take?_of_le {n : Nat} {i : Input} (h : n ≤ i.length) :
    (i.take? n).1 = some (i.unread.take n) ∧ (i.take? n).2.unread = i.unread.drop n := by
  rcases i with ⟨fetched, rest⟩
  simp only [length] at h
  simp only [take?, split?_eq, unread]
  by_cases hfetched : n ≤ fetched.length
  · have hzero : n - fetched.length = 0 := by omega
    simp [hfetched, List.take_append, List.drop_append, hzero]
  · have hmissing : n - fetched.length ≤ (rest.take (max (n - fetched.length) blockSize)).length := by
      simp only [List.length_take]
      omega
    have hall : fetched.length ≤ n := by omega
    have hmax : n - fetched.length ≤ max (n - fetched.length) blockSize := Nat.le_max_left _ _
    simp only [hfetched, if_false, hmissing, if_true]
    constructor
    · simp [List.take_append, List.take_of_length_le hall, List.take_take, hmax]
    · rw [List.drop_append, List.drop_of_length_le hall, List.nil_append]
      have hsplit := List.take_append_drop (max (n - fetched.length) blockSize) rest
      have hdrop : (rest.take (max (n - fetched.length) blockSize)
          ++ rest.drop (max (n - fetched.length) blockSize)).drop (n - fetched.length)
          = rest.drop (n - fetched.length) := by rw [hsplit]
      rw [List.drop_append_of_le_length hmissing] at hdrop
      exact hdrop

/-- Where the file ends too early, everything is gone. -/
theorem take?_of_lt {n : Nat} {i : Input} (h : i.length < n) : i.take? n = (none, ⟨[], []⟩) := by
  rcases i with ⟨fetched, rest⟩
  simp only [length] at h
  have hfetched : ¬n ≤ fetched.length := by omega
  have hmissing :
      ¬n - fetched.length ≤ (rest.take (max (n - fetched.length) blockSize)).length := by
    simp only [List.length_take]
    omega
  simp only [take?, split?_eq, hfetched, if_false, hmissing]

/-- What was fetched is gone from the front of the file. -/
theorem rest_take?_suffix (n : Nat) (i : Input) : (i.take? n).2.rest <:+ i.rest := by
  unfold take?
  split
  · exact List.suffix_rfl
  · dsimp only
    split
    · exact List.drop_suffix _ _
    · exact List.nil_suffix

end Input

end PagedQuery
