import PagedQuery.Act

/-!
# Actions that answer

An action that is known to answer is followed from call to call: `Act.Gives` names its answer and
the state it leaves. An answer of a composed action is put together from those of its parts. Where
an action can also fail, `Act.Attains` says what its answer is like and of which kind its failures
are.
-/

namespace PagedQuery

/-- Results that were put together have parts. -/
theorem exists_of_bind_eq_ok {ε α β : Type} {x : Except ε α} {f : α → Except ε β} {b : β}
    (h : x >>= f = .ok b) : ∃ a, x = .ok a ∧ f a = .ok b := by
  cases x with
  | error e => cases h
  | ok a => exact ⟨a, rfl, h⟩

theorem bind_eq_ok_iff {ε α β : Type} {x : Except ε α} {f : α → Except ε β} {b : β} :
    x >>= f = .ok b ↔ ∃ a, x = .ok a ∧ f a = .ok b := by
  refine ⟨exists_of_bind_eq_ok, ?_⟩
  rintro ⟨a, rfl, h⟩
  exact h

namespace Act

variable {σ τ α β : Type}

/-- An action that answers, and the state after it. -/
def Gives (x : Act σ α) (root : TempRoot) (s : σ) (a : α) (t : σ) : Prop :=
  x.Ensures root s fun answer u => answer = .ok a ∧ u = t

/-- An action that fails this way. -/
def Fails (x : Act σ α) (root : TempRoot) (s : σ) (e : Failure) : Prop :=
  x.Ensures root s fun answer _ => answer = .error e

variable {root : TempRoot} {s t u : σ} {x : Act σ α} {f : α → Act σ β} {a : α} {b : β}
  {e : Failure}

/-- What follows an answer decides what a composed action ensures. -/
theorem Gives.bind_ensures {post : Except Failure β → σ → Prop} (hx : x.Gives root s a t)
    (hf : (f a).Ensures root t post) : (x >>= f).Ensures root s post := by
  refine Ensures.bind hx ?_ ?_
  · rintro e v ⟨he, -⟩
    cases he
  · rintro a' v ⟨ha, rfl⟩
    cases ha
    exact hf

theorem Gives.ensures {post : Except Failure α → σ → Prop} (hx : x.Gives root s a t)
    (h : post (.ok a) t) : x.Ensures root s post := by
  obtain ⟨ha, rfl⟩ := hx
  exact (congrArg (fun answer => post answer _) ha).mpr h

theorem Gives.bind (hx : x.Gives root s a t) (hf : (f a).Gives root t b u) :
    (x >>= f).Gives root s b u :=
  hx.bind_ensures hf

theorem Gives.ensured {post : Except Failure α → σ → Prop} (hx : x.Gives root s a t)
    (h : x.Ensures root s post) : post (.ok a) t := by
  obtain ⟨ha, rfl⟩ := hx
  exact ha ▸ h

theorem Gives.unique {a' : α} {t' : σ} (h : x.Gives root s a t) (h' : x.Gives root s a' t') :
    a = a' ∧ t = t' := by
  obtain ⟨ha, rfl⟩ := h
  obtain ⟨ha', rfl⟩ := h'
  exact ⟨Except.ok.inj (ha.symm.trans ha'), rfl⟩

theorem gives_pure : (pure a : Act σ α).Gives root s a s := ⟨rfl, rfl⟩

theorem gives_set : (set t : Act σ PUnit).Gives root s ⟨⟩ t := ⟨rfl, rfl⟩

theorem gives_modify (change : σ → σ) :
    (modify change : Act σ PUnit).Gives root s ⟨⟩ (change s) := ⟨rfl, rfl⟩

theorem ensures_tempRoot_bind {f : TempRoot → Act σ α} {post : Except Failure α → σ → Prop} :
    (tempRoot >>= f).Ensures root s post ↔ (f root).Ensures root s post := Iff.rfl

theorem gives_get_bind {f : σ → Act σ β} :
    (get >>= f).Gives root s b u ↔ (f s).Gives root s b u := Iff.rfl

theorem Gives.within {part : σ → τ} {put : σ → τ → σ} {x : Act τ α} {v : τ}
    (hx : x.Gives root (part s) a v) : (within part put x).Gives root s a (put s v) := by
  obtain ⟨ha, rfl⟩ := hx
  exact ⟨ha, rfl⟩

theorem Gives.attempt (hx : x.Gives root s a t) : (attempt x).Gives root s (.ok a) t := by
  obtain ⟨ha, rfl⟩ := hx
  exact ⟨congrArg Except.ok ha, rfl⟩

theorem gives_ofExcept {answer : Except Error α} (h : answer = .ok a) :
    (ofExcept answer : Act σ α).Gives root s a s := by
  rw [h]
  exact ⟨rfl, rfl⟩

theorem gives_ofAnswer {answer : Except Failure α} (h : answer = .ok a) :
    (ofAnswer answer : Act σ α).Gives root s a s := by
  rw [h]
  exact ⟨rfl, rfl⟩

theorem gives_require {found : Option α} (h : found = some a) :
    (require found : Act σ α).Gives root s a s := by
  rw [h]
  exact ⟨rfl, rfl⟩

theorem Gives.bind_fails (hx : x.Gives root s a t) (hf : (f a).Fails root t e) :
    (x >>= f).Fails root s e :=
  hx.bind_ensures hf

theorem Fails.bind (hx : x.Fails root s e) : (x >>= f).Fails root s e := by
  refine Ensures.bind hx ?_ ?_
  · intro e' u he
    cases he
    exact rfl
  · intro a u ha
    cases ha

theorem Fails.exists_attempt (hx : x.Fails root s e) :
    ∃ t, (attempt x).Gives root s (.error e) t :=
  ⟨_, congrArg Except.ok hx, rfl⟩

/-- An action that fails this way and leaves a state of a kind. -/
def FailsIn (x : Act σ α) (root : TempRoot) (s : σ) (e : Failure) (P : σ → Prop) : Prop :=
  x.Ensures root s fun answer t => answer = .error e ∧ P t

section FailsIn

variable {P Q : σ → Prop}

theorem FailsIn.bind (hx : x.FailsIn root s e P) : (x >>= f).FailsIn root s e P := by
  refine Ensures.bind hx ?_ ?_
  · intro e' u he
    cases he.1
    exact ⟨rfl, he.2⟩
  · intro a u ha
    cases ha.1

theorem Gives.bind_failsIn (hx : x.Gives root s a t) (hf : (f a).FailsIn root t e P) :
    (x >>= f).FailsIn root s e P :=
  hx.bind_ensures hf

theorem FailsIn.mono (hx : x.FailsIn root s e P) (hPQ : ∀ t, P t → Q t) : x.FailsIn root s e Q :=
  Ensures.mono hx fun _ t ht => ⟨ht.1, hPQ t ht.2⟩

theorem FailsIn.ensures {post : Except Failure α → σ → Prop} (hx : x.FailsIn root s e P)
    (h : ∀ t, P t → post (.error e) t) : x.Ensures root s post :=
  (congrArg (fun answer => post answer _) hx.1).mpr (h _ hx.2)

theorem FailsIn.ensured {post : Except Failure α → σ → Prop} (hx : x.FailsIn root s e (· = t))
    (h : x.Ensures root s post) : post (.error e) t := by
  obtain ⟨he, rfl⟩ := hx
  exact he ▸ h

theorem FailsIn.fails (hx : x.FailsIn root s e P) : x.Fails root s e := hx.1

theorem Fails.failsIn (hx : x.Fails root s e) : x.FailsIn root s e fun _ => True := ⟨hx, trivial⟩

theorem FailsIn.within {part : σ → τ} {put : σ → τ → σ} {x : Act τ α} {P : τ → Prop}
    (hx : x.FailsIn root (part s) e P) :
    (within part put x).FailsIn root s e fun t => ∃ u, P u ∧ t = put s u :=
  ⟨hx.1, _, hx.2, rfl⟩

theorem FailsIn.exists_attempt (hx : x.FailsIn root s e P) :
    ∃ t, P t ∧ (attempt x).Gives root s (.error e) t :=
  ⟨_, hx.2, congrArg Except.ok hx.1, rfl⟩

theorem failsIn_ofAnswer {answer : Except Failure α} (h : answer = .error e) (hs : P s) :
    (ofAnswer answer : Act σ α).FailsIn root s e P := by
  rw [h]
  exact ⟨rfl, hs⟩

end FailsIn

section Parts

variable {after : Except Failure β → σ → Prop}

/-- What follows a result is ensured if it is ensured for what the result holds, or for its error. -/
theorem ensures_ofExcept_bind {answer : Except Error α}
    (hok : ∀ a, answer = .ok a → (f a).Ensures root s after)
    (herror : ∀ e, answer = .error e → after (.error (.error e)) s) :
    (ofExcept answer >>= f).Ensures root s after := by
  cases answer with
  | ok a => exact hok a rfl
  | error e => exact herror e rfl

theorem ensures_ofAnswer_bind {answer : Except Failure α}
    (hok : ∀ a, answer = .ok a → (f a).Ensures root s after)
    (herror : ∀ e, answer = .error e → after (.error e) s) :
    (ofAnswer answer >>= f).Ensures root s after := by
  cases answer with
  | ok a => exact hok a rfl
  | error e => exact herror e rfl

theorem ensures_require_bind {found : Option α} (hsome : ∀ a, found = some a → (f a).Ensures root s after)
    (hnone : found = none → after (.error .outOfRange) s) :
    (require found >>= f).Ensures root s after := by
  cases found with
  | some a => exact hsome a rfl
  | none => exact hnone rfl

/-- Performing an action in spite of how it ends. -/
theorem Ensures.attempt_bind {f : Except Failure α → Act σ β} {post : Except Failure α → σ → Prop}
    (hx : x.Ensures root s post) (hf : ∀ answer t, post answer t → (f answer).Ensures root t after) :
    (attempt x >>= f).Ensures root s after :=
  hf _ _ hx

theorem Ensures.and {post post' : Except Failure α → σ → Prop} (h : x.Ensures root s post)
    (h' : x.Ensures root s post') :
    x.Ensures root s fun answer t => post answer t ∧ post' answer t := ⟨h, h'⟩

end Parts

/-- Whether what is read off the state is the same after an action, however it ends. -/
def Fixes {γ : Type} (x : Act σ α) (g : σ → γ) : Prop :=
  ∀ root s, x.Ensures root s fun _ t => g t = g s

section Fixes

variable {γ : Type} {g : σ → γ}

theorem Fixes.bind (hx : x.Fixes g) (hf : ∀ a, (f a).Fixes g) : (x >>= f).Fixes g := by
  intro root s
  refine Ensures.bind (hx root s) (fun _ _ ht => ht) fun a t ht => ?_
  exact Ensures.mono (hf a root t) fun _ _ hu => hu.trans ht

theorem Fixes.keeps {c : γ} (hx : x.Fixes g) (hs : g s = c) :
    x.Ensures root s fun _ t => g t = c :=
  (hx root s).mono fun _ _ ht => ht.trans hs

theorem fixes_pure (a : α) : (pure a : Act σ α).Fixes g := fun _ _ => rfl

theorem fixes_abandon (e : Failure) : (abandon e : Act σ α).Fixes g := fun _ _ => rfl

theorem fixes_fail_bind {e : Error} {f : α → Act σ β} : (fail e >>= f).Fixes g := fun _ _ => rfl

theorem fixes_ofAnswer (answer : Except Failure α) : (ofAnswer answer : Act σ α).Fixes g := by
  cases answer with
  | ok a => exact fixes_pure a
  | error e => exact fixes_abandon e

theorem fixes_ofExcept (answer : Except Error α) : (ofExcept answer : Act σ α).Fixes g := by
  cases answer with
  | ok a => exact fixes_pure a
  | error e => exact fixes_abandon (.error e)

theorem fixes_require (found : Option α) : (require found : Act σ α).Fixes g := by
  cases found with
  | some a => exact fixes_pure a
  | none => exact fixes_abandon .outOfRange

theorem fixes_get_bind {f : σ → Act σ β} (hf : ∀ s, (f s).Fixes g) : (get >>= f).Fixes g :=
  fun root s => hf s root s

theorem fixes_modify {change : σ → σ} (h : ∀ s, g (change s) = g s) :
    (modify change : Act σ PUnit).Fixes g := fun _ s => h s

theorem Fixes.attempt (hx : x.Fixes g) : (attempt x).Fixes g := hx

theorem fixes_foldlM {ι : Type} {step : α → ι → Act σ α} (h : ∀ a i, (step a i).Fixes g)
    (items : List ι) (a : α) : (items.foldlM step a).Fixes g := by
  induction items generalizing a with
  | nil => exact fixes_pure a
  | cons i items ih =>
    rw [List.foldlM_cons]
    exact (h a i).bind ih

end Fixes

theorem gives_or_fails (x : Act σ α) (root : TempRoot) (s : σ) :
    (∃ a t, x.Gives root s a t) ∨ ∃ e, x.Fails root s e := by
  cases hanswer : (x.run root s).answer with
  | ok a => exact .inl ⟨a, _, hanswer, rfl⟩
  | error e => exact .inr ⟨e, hanswer⟩

theorem Gives.not_fails (h : x.Gives root s a t) : ¬x.Fails root s e := by
  intro he
  cases h.1.symm.trans he

/-- Actions are performed alike if what follows each answer of their first part is. -/
theorem run_bind_congr {g : α → Act σ β}
    (h : ∀ a t, x.Gives root s a t → (f a).run root t = (g a).run root t) :
    (x >>= f).run root s = (x >>= g).run root s := by
  rw [run_bind, run_bind]
  cases hanswer : (x.run root s).answer with
  | error e => rfl
  | ok a => simp only [h a _ ⟨hanswer, rfl⟩]

/-- A composed action answers because its parts do. -/
theorem Gives.of_bind (h : (x >>= f).Gives root s b u) :
    ∃ a t, x.Gives root s a t ∧ (f a).Gives root t b u := by
  rcases gives_or_fails x root s with ⟨a, t, hx⟩ | ⟨e, hx⟩
  · rcases gives_or_fails (f a) root t with ⟨b', u', hf⟩ | ⟨e, hf⟩
    · obtain ⟨rfl, rfl⟩ := h.unique (hx.bind hf)
      exact ⟨a, t, hx, hf⟩
    · exact absurd (hx.bind_fails hf) h.not_fails
  · exact absurd hx.bind h.not_fails

/-- A composed action fails because one of its parts does. -/
theorem Fails.of_bind (h : (x >>= f).Fails root s e) :
    x.Fails root s e ∨ ∃ a t, x.Gives root s a t ∧ (f a).Fails root t e := by
  rcases gives_or_fails x root s with ⟨a, t, hx⟩ | ⟨e', hx⟩
  · refine .inr ⟨a, t, hx, ?_⟩
    have hrest : (x >>= f).Ensures root s fun answer _ => answer = .error e := h
    unfold Ensures at hrest
    rw [run_bind, hx.1] at hrest
    rw [← hx.2]
    exact hrest
  · obtain rfl : e = e' := Except.error.inj (h.symm.trans hx.bind)
    exact .inl hx

theorem Gives.of_within {part : σ → τ} {put : σ → τ → σ} {x : Act τ α}
    (h : (Act.within part put x).Gives root s a t) :
    ∃ v, x.Gives root (part s) a v ∧ t = put s v :=
  ⟨_, ⟨h.1, rfl⟩, h.2.symm⟩

theorem Gives.of_ofExcept_bind {answer : Except Error α} (h : (ofExcept answer >>= f).Gives root s b t) :
    ∃ a, answer = .ok a ∧ (f a).Gives root s b t := by
  cases answer with
  | ok a => exact ⟨a, rfl, h⟩
  | error e => cases h.1

theorem Gives.of_ofAnswer {answer : Except Failure α} (h : (ofAnswer answer).Gives root s a t) :
    answer = .ok a ∧ t = s := by
  cases answer with
  | error e => cases h.1
  | ok b => exact ⟨congrArg _ (Except.ok.inj h.1), h.2.symm⟩

theorem Gives.of_ofAnswer_bind {answer : Except Failure α}
    (h : (ofAnswer answer >>= f).Gives root s b t) :
    ∃ a, answer = .ok a ∧ (f a).Gives root s b t := by
  cases answer with
  | ok a => exact ⟨a, rfl, h⟩
  | error e => cases h.1

theorem Fails.of_ofAnswer {answer : Except Failure α}
    (h : (ofAnswer answer : Act σ α).Fails root s e) : answer = .error e := by
  cases answer with
  | error e' => exact congrArg _ (Except.error.inj h)
  | ok b => cases h

/-- An action that answers with what is wanted, or fails for a reason of a kind. -/
def Attains (x : Act σ α) (root : TempRoot) (s : σ) (goal : α → σ → Prop)
    (fault : Failure → Prop) : Prop :=
  x.Ensures root s fun answer t => match answer with
    | .ok a => goal a t
    | .error e => fault e

section Attains

variable {goal : α → σ → Prop} {after : β → σ → Prop} {fault : Failure → Prop}

theorem Attains.bind (hx : x.Attains root s goal fault)
    (hf : ∀ a t, goal a t → (f a).Attains root t after fault) :
    (x >>= f).Attains root s after fault :=
  Ensures.bind hx (fun _ _ he => he) hf

theorem Gives.bind_attains (hx : x.Gives root s a t) (hf : (f a).Attains root t after fault) :
    (x >>= f).Attains root s after fault :=
  hx.bind_ensures hf

theorem Attains.mono {goal' : α → σ → Prop} {fault' : Failure → Prop}
    (hx : x.Attains root s goal fault) (hgoal : ∀ a t, goal a t → goal' a t)
    (hfault : ∀ e, fault e → fault' e) : x.Attains root s goal' fault' := by
  refine Ensures.mono hx ?_
  rintro (e | a) t h
  · exact hfault e h
  · exact hgoal a t h

theorem Attains.attempt_bind {f : Except Failure α → Act σ β} (hx : x.Attains root s goal fault)
    (hok : ∀ a t, goal a t → (f (.ok a)).Attains root t after fault)
    (herror : ∀ e t, fault e → (f (.error e)).Attains root t after fault) :
    (attempt x >>= f).Attains root s after fault := by
  rcases gives_or_fails x root s with ⟨a, t, hgives⟩ | ⟨e, hfails⟩
  · refine hgives.attempt.bind_ensures (hok a t ?_)
    unfold Attains Ensures at hx
    rwa [hgives.1, hgives.2] at hx
  · obtain ⟨t, hgives⟩ := hfails.exists_attempt
    refine hgives.bind_ensures (herror e t ?_)
    have hanswer : (x.run root s).answer = .error e := hfails
    unfold Attains Ensures at hx
    rwa [hanswer] at hx

theorem attains_pure : (pure a : Act σ α).Attains root s goal fault ↔ goal a s := Iff.rfl

theorem attains_abandon : (abandon e : Act σ α).Attains root s goal fault ↔ fault e := Iff.rfl

theorem Gives.attains (hx : x.Gives root s a t) (h : goal a t) : x.Attains root s goal fault := by
  refine Ensures.mono hx ?_
  rintro _ _ ⟨rfl, rfl⟩
  exact h

theorem Attains.of_gives (h : x.Attains root s goal fault) (hx : x.Gives root s a t) :
    goal a t := by
  unfold Attains Ensures at h
  rwa [hx.1, hx.2] at h

theorem Attains.of_fails (h : x.Attains root s goal fault) (hx : x.Fails root s e) : fault e := by
  have hanswer : (x.run root s).answer = .error e := hx
  unfold Attains Ensures at h
  rwa [hanswer] at h

theorem Attains.exists_gives (h : x.Attains root s goal fault) (hnone : ∀ e, ¬fault e) :
    ∃ a t, goal a t ∧ x.Gives root s a t := by
  rcases gives_or_fails x root s with ⟨a, t, hx⟩ | ⟨e, hx⟩
  · exact ⟨a, t, h.of_gives hx, hx⟩
  · exact absurd (h.of_fails hx) (hnone e)

end Attains

end Act
end PagedQuery
