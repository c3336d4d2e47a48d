import PagedQuery.Proofs.RunGrammar

/-!
# Scans and the bytes that they take

How a scan ends is decided by the bytes that it takes: with others behind these it ends in the
same way and leaves those. This holds of failures as well as of answers. Only a scan that runs out
of bytes is different, since it might have gone on if there had been more, and it leaves none.
-/

namespace PagedQuery
namespace Scan

variable {α β : Type} {x : Scan α} {f : α → Scan β} {a : α} {fault : RunFault}
  {answer : Except RunFault β} {front back : Bytes}

/-- Whether a scan takes these bytes and ends in this way wherever they are in front. -/
def EndsAfter (x : Scan α) (taken : Bytes) (answer : Except RunFault α) : Prop :=
  ∀ (input : Input) rest, input.unread = taken ++ rest →
    (x.perform input).1 = answer ∧ (x.perform input).2.unread = rest

namespace EndsAfter

theorem pure (a : α) : EndsAfter (pure a) [] (.ok a) := fun _ _ hinput => ⟨rfl, hinput⟩

theorem throw (fault : RunFault) : EndsAfter (throw fault : Scan α) [] (.error fault) :=
  fun _ _ hinput => ⟨rfl, hinput⟩

theorem bind (hx : EndsAfter x front (.ok a)) (hf : EndsAfter (f a) back answer) :
    EndsAfter (x >>= f) (front ++ back) answer := by
  intro input rest hinput
  rw [List.append_assoc] at hinput
  obtain ⟨hanswer, hmiddle⟩ := hx input _ hinput
  rw [perform_bind]
  rcases hrun : x.perform input with ⟨found, middle⟩
  rw [hrun] at hanswer hmiddle
  obtain rfl : found = .ok a := hanswer
  exact hf middle rest hmiddle

theorem bind_error (hx : EndsAfter x front (.error fault)) :
    EndsAfter (x >>= f) front (.error fault) := by
  intro input rest hinput
  obtain ⟨hanswer, hrest⟩ := hx input rest hinput
  rw [perform_bind]
  rcases hrun : x.perform input with ⟨found, middle⟩
  rw [hrun] at hanswer hrest
  obtain rfl : found = .error fault := hanswer
  exact ⟨rfl, hrest⟩

theorem take (bytes : Bytes) : EndsAfter (take bytes.length) bytes (.ok bytes) := by
  intro input rest hinput
  have hle : bytes.length ≤ input.length := by
    rw [← Input.length_unread, hinput, List.length_append]
    exact Nat.le_add_right _ _
  obtain ⟨hanswer, hrest⟩ := Input.take?_of_le hle
  rw [hinput, List.take_left] at hanswer
  rw [hinput, List.drop_left] at hrest
  rw [perform_take, hanswer]
  exact ⟨rfl, hrest⟩

end EndsAfter

/-- A scan that either runs out of bytes, with all of them taken, or ends in a way that the bytes
which it takes decide. -/
def IsLocal (x : Scan α) : Prop :=
  ∀ input, x.perform input = (.error .truncated, ⟨[], []⟩) ∨
    ∃ taken rest, input.unread = taken ++ rest ∧ (x.perform input).1 ≠ .error .truncated ∧
      x.EndsAfter taken (x.perform input).1

namespace IsLocal

theorem pure (a : α) : IsLocal (pure a) :=
  fun input => .inr ⟨[], input.unread, rfl, nofun, .pure a⟩

theorem throw (h : fault ≠ .truncated) : IsLocal (throw fault : Scan α) :=
  fun input => .inr ⟨[], input.unread, rfl, fun hfault => h (Except.error.inj hfault), .throw fault⟩

theorem bind (hx : IsLocal x) (hf : ∀ a, IsLocal (f a)) : IsLocal (x >>= f) := by
  intro input
  rcases hx input with hout | ⟨front, middle, hfront, hanswer, hends⟩
  · rw [perform_bind, hout]
    exact .inl rfl
  obtain ⟨-, hmiddle⟩ := hends input middle hfront
  rw [perform_bind]
  rcases hrun : x.perform input with ⟨fault | a, input'⟩
  · rw [hrun] at hanswer hends
    exact .inr ⟨front, middle, hfront, fun hfault => hanswer (congrArg _ (Except.error.inj hfault)),
      hends.bind_error⟩
  · rw [hrun] at hends hmiddle
    rcases hf a input' with hout | ⟨back, rest, hback, hlast, hendsLast⟩
    · exact .inl hout
    · refine .inr ⟨front ++ back, rest, ?_, hlast, hends.bind hendsLast⟩
      rw [hfront, ← hmiddle, hback, List.append_assoc]

theorem take (n : Nat) : IsLocal (take n) := by
  intro input
  rcases Nat.lt_or_ge input.length n with hshort | hlong
  · rw [perform_take, Input.take?_of_lt hshort]
    exact .inl rfl
  · have hlength : (input.unread.take n).length = n := by
      rw [List.length_take, Input.length_unread]
      exact Nat.min_eq_left hlong
    have hends := EndsAfter.take (input.unread.take n)
    rw [hlength] at hends
    have hanswer := (hends input (input.unread.drop n) (List.take_append_drop n _).symm).1
    refine .inr ⟨_, _, (List.take_append_drop n _).symm, ?_, ?_⟩
    · rw [hanswer]
      nofun
    · rwa [hanswer]

theorem map (g : α → β) (hx : IsLocal x) : IsLocal (do return g (← x)) :=
  hx.bind fun a => pure (g a)

theorem number (n : Nat) : IsLocal (number n) := (take n).bind fun _ => pure _

theorem text (n : Nat) : IsLocal (text n) := by
  refine (take n).bind fun bytes => ?_
  split
  · exact pure _
  · exact throw nofun

theorem field : IsLocal field := by
  refine (number 1).bind fun tag => ?_
  split
  · exact pure _
  · exact (number 8).map _
  · exact (number 8).map _
  · exact (number 4).bind fun n => (text n).map _
  · exact throw nofun

theorem repeated {item : Scan α} (h : IsLocal item) (n : Nat) (done : List α) :
    IsLocal (repeated item n done) := by
  induction n generalizing done with
  | zero => exact pure _
  | succ n ih => exact h.bind fun a => ih (a :: done)

theorem row : IsLocal row := (number 2).bind fun count => field.repeated count []

theorem header : IsLocal header := by
  refine (take 4).bind fun bytes => ?_
  have hversion : IsLocal (do
      let version ← Scan.number 2
      if version ≠ RunFile.version then
        MonadExcept.throw (RunFault.unsupportedVersion version) : Scan Unit) := by
    refine (number 2).bind fun version => ?_
    split
    · exact throw nofun
    · exact pure ()
  split
  · have hmagic : RunFault.badMagic ≠ .truncated := nofun
    exact (throw hmagic).bind fun _ => hversion
  · exact hversion

theorem batch? (capacity : Nat) : IsLocal (batch? capacity) := by
  refine (number 4).bind fun count => ?_
  split
  · exact pure _
  · split
    · exact throw nofun
    · exact (row.repeated count []).map _

end IsLocal

end Scan
end PagedQuery
