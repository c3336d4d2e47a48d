import PagedQuery.Error
import PagedQuery.Storage.Listing

/-!
# Actions

The calls of an operator are `Act`ions on its state. An action sees whether the directory for
working folders exists, can fail, and can note calls for a journal. A failure leaves the state as
it was at that moment. Performing a composed action performs its parts in order, which is what the
lemmas on `Act.run` say.
-/

namespace PagedQuery

/-- What an action gives: an answer, the state after it, and the calls noted on the way. -/
@[ext]
structure Outcome (σ α : Type) where
  answer : Except Failure α
  state : σ
  calls : List String

/-- A call on a state. -/
def Act (σ α : Type) : Type := TempRoot → σ → Outcome σ α

namespace Act

variable {σ τ α β : Type}

def run (x : Act σ α) (root : TempRoot) (s : σ) : Outcome σ α := x root s

protected def pure (a : α) : Act σ α := fun _ s => ⟨.ok a, s, []⟩

/-- One action after the other. The second is not reached if the first fails. -/
protected def bind (x : Act σ α) (f : α → Act σ β) : Act σ β := fun root s =>
  let first := x root s
  match first.answer with
  | .ok a =>
    let second := f a root first.state
    ⟨second.answer, second.state, first.calls ++ second.calls⟩
  | .error e => ⟨.error e, first.state, first.calls⟩

instance : Monad (Act σ) where
  pure := Act.pure
  bind := Act.bind

instance : MonadStateOf σ (Act σ) where
  get := fun _ s => ⟨.ok s, s, []⟩
  set s := fun _ _ => ⟨.ok (), s, []⟩
  modifyGet f := fun _ s => ⟨.ok (f s).1, (f s).2, []⟩

def fail (e : Error) : Act σ α := fun _ s => ⟨.error (.error e), s, []⟩

/-- Fails, for whatever reason. -/
def abandon (f : Failure) : Act σ α := fun _ s => ⟨.error f, s, []⟩

/-- Goes on with a result, or fails with its error. -/
def ofExcept : Except Error α → Act σ α
  | .ok a => pure a
  | .error e => fail e

/-- Goes on with a result, or fails as it did. -/
def ofAnswer : Except Failure α → Act σ α
  | .ok a => pure a
  | .error f => abandon f

/-- Goes on with what was read at some positions, or fails because one was out of range. -/
def require : Option α → Act σ α
  | some a => pure a
  | none => abandon .outOfRange

def tempRoot : Act σ TempRoot := fun root s => ⟨.ok root, s, []⟩

def note (call : String) : Act σ Unit := fun _ s => ⟨.ok (), s, [call]⟩

/-- Performs an action and answers how it ended. -/
def attempt (x : Act σ α) : Act σ (Except Failure α) := fun root s =>
  let outcome := x root s
  ⟨.ok outcome.answer, outcome.state, outcome.calls⟩

/-- Performs an action on a part of the state. -/
def within (part : σ → τ) (put : σ → τ → σ) (x : Act τ α) : Act σ α := fun root s =>
  let outcome := x root (part s)
  ⟨outcome.answer, put s outcome.state, outcome.calls⟩

variable (root : TempRoot) (s : σ)

@[simp]
theorem run_pure (a : α) : (pure a : Act σ α).run root s = ⟨.ok a, s, []⟩ := rfl

/-- Performing one action after the other: the second begins where the first ended. -/
theorem run_bind (x : Act σ α) (f : α → Act σ β) :
    (x >>= f).run root s =
      match (x.run root s).answer with
      | .ok a =>
        let second := (f a).run root (x.run root s).state
        ⟨second.answer, second.state, (x.run root s).calls ++ second.calls⟩
      | .error e => ⟨.error e, (x.run root s).state, (x.run root s).calls⟩ := rfl

@[simp]
theorem run_get : (get : Act σ σ).run root s = ⟨.ok s, s, []⟩ := rfl

@[simp]
theorem run_set (t : σ) : (set t : Act σ PUnit).run root s = ⟨.ok ⟨⟩, t, []⟩ := rfl

@[simp]
theorem run_modify (f : σ → σ) : (modify f : Act σ PUnit).run root s = ⟨.ok ⟨⟩, f s, []⟩ := rfl

@[simp]
theorem run_fail (e : Error) : (fail e : Act σ α).run root s = ⟨.error (.error e), s, []⟩ := rfl

@[simp]
theorem run_abandon (f : Failure) : (abandon f : Act σ α).run root s = ⟨.error f, s, []⟩ := rfl

@[simp]
theorem run_tempRoot : (tempRoot : Act σ TempRoot).run root s = ⟨.ok root, s, []⟩ := rfl

@[simp]
theorem run_note (call : String) : (note call : Act σ Unit).run root s = ⟨.ok (), s, [call]⟩ := rfl

@[simp]
theorem run_attempt (x : Act σ α) :
    (attempt x).run root s =
      ⟨.ok (x.run root s).answer, (x.run root s).state, (x.run root s).calls⟩ := rfl

@[simp]
theorem run_within (part : σ → τ) (put : σ → τ → σ) (x : Act τ α) :
    (within part put x).run root s =
      ⟨(x.run root (part s)).answer, put s (x.run root (part s)).state,
        (x.run root (part s)).calls⟩ := rfl

/-- What holds of the answer of an action and of the state after it. -/
def Ensures (x : Act σ α) (root : TempRoot) (s : σ) (post : Except Failure α → σ → Prop) : Prop :=
  post (x.run root s).answer (x.run root s).state

section Ensures

variable {root : TempRoot} {s t : σ} {x : Act σ α} {f : α → Act σ β} {a : α}
  {post weaker : Except Failure α → σ → Prop} {after : Except Failure β → σ → Prop}

theorem Ensures.mono (h : x.Ensures root s post) (hpost : ∀ answer t, post answer t → weaker answer t) :
    x.Ensures root s weaker :=
  hpost _ _ h

/-- What the second action ensures after each answer of the first, both ensure together. -/
theorem Ensures.bind (hx : x.Ensures root s post)
    (herror : ∀ e t, post (.error e) t → after (.error e) t)
    (hok : ∀ a t, post (.ok a) t → (f a).Ensures root t after) : (x >>= f).Ensures root s after := by
  unfold Ensures at hx ⊢
  rw [run_bind]
  cases hanswer : (x.run root s).answer with
  | ok a =>
    rw [hanswer] at hx
    exact hok a _ hx
  | error e =>
    rw [hanswer] at hx
    exact herror e _ hx

theorem Ensures.within_bind {part : σ → τ} {put : σ → τ → σ} {x : Act τ α}
    {post : Except Failure α → τ → Prop} (hx : x.Ensures root (part s) post)
    (herror : ∀ e t, post (.error e) t → after (.error e) (put s t))
    (hok : ∀ a t, post (.ok a) t → (f a).Ensures root (put s t) after) :
    (within part put x >>= f).Ensures root s after := by
  have hwithin : (within part put x).Ensures root s fun answer u =>
      ∃ t, post answer t ∧ u = put s t := ⟨_, hx, rfl⟩
  refine hwithin.bind ?_ ?_
  · rintro e u ⟨t, ht, rfl⟩
    exact herror e t ht
  · rintro a u ⟨t, ht, rfl⟩
    exact hok a t ht

theorem ensures_pure : (pure a : Act σ α).Ensures root s post ↔ post (.ok a) s := Iff.rfl

theorem ensures_pure_bind : (pure a >>= f).Ensures root s after ↔ (f a).Ensures root s after :=
  Iff.rfl

theorem ensures_abandon_bind {e : Failure} :
    (abandon e >>= f).Ensures root s after ↔ after (.error e) s := Iff.rfl

theorem ensures_fail {e : Error} :
    (fail e : Act σ α).Ensures root s post ↔ post (.error (.error e)) s := Iff.rfl

theorem ensures_fail_bind {e : Error} :
    (fail e >>= f).Ensures root s after ↔ after (.error (.error e)) s := Iff.rfl

theorem ensures_get_bind {f : σ → Act σ β} :
    (get >>= f).Ensures root s after ↔ (f s).Ensures root s after := Iff.rfl

theorem ensures_set_bind {f : PUnit → Act σ β} :
    (set t >>= f).Ensures root s after ↔ (f ⟨⟩).Ensures root t after := Iff.rfl

theorem ensures_set {post : Except Failure PUnit → σ → Prop} :
    (set t : Act σ PUnit).Ensures root s post ↔ post (.ok ⟨⟩) t := Iff.rfl

theorem ensures_modify_bind {change : σ → σ} {f : PUnit → Act σ β} :
    (modify change >>= f).Ensures root s after ↔ (f ⟨⟩).Ensures root (change s) after := Iff.rfl

theorem ensures_modify {change : σ → σ} {post : Except Failure PUnit → σ → Prop} :
    (modify change : Act σ PUnit).Ensures root s post ↔ post (.ok ⟨⟩) (change s) := Iff.rfl

theorem ensures_within {part : σ → τ} {put : σ → τ → σ} {x : Act τ α} :
    (within part put x).Ensures root s post ↔
      x.Ensures root (part s) fun answer t => post answer (put s t) := Iff.rfl

theorem ensures_ofExcept {answer : Except Error α} :
    (ofExcept answer : Act σ α).Ensures root s post ↔ post (Failure.ofExcept answer) s := by
  cases answer <;> exact Iff.rfl

end Ensures

theorem eq_of_run {x y : Act σ α} (h : ∀ root s, x.run root s = y.run root s) : x = y := by
  funext root s
  exact h root s

theorem map_id_eq (x : Act σ α) : id <$> x = x := by
  apply eq_of_run
  intro root s
  change (x >>= fun a => pure (id a)).run root s = x.run root s
  rw [run_bind]
  cases h : (x.run root s).answer <;> ext <;> simp [h]

theorem pure_bind_eq (a : α) (f : α → Act σ β) : pure a >>= f = f a := by
  apply eq_of_run
  intro root s
  rw [run_bind]
  simp

theorem bind_assoc_eq {γ : Type} (x : Act σ α) (f : α → Act σ β) (g : β → Act σ γ) :
    x >>= f >>= g = x >>= fun a => f a >>= g := by
  apply eq_of_run
  intro root s
  simp only [run_bind]
  cases hx : (x.run root s).answer with
  | error e => rfl
  | ok a => cases hf : ((f a).run root (x.run root s).state).answer <;> simp [hf]

instance : LawfulMonad (Act σ) :=
  LawfulMonad.mk' (Act σ) map_id_eq pure_bind_eq bind_assoc_eq

end Act

end PagedQuery
