import PagedQuery.Proofs.CallHistories

/-!
# The page machine

Seen from outside, an operator is a small machine. It opens, or it does not open for a reason that is
always the same; once open it hands out its pages one after the other; closing it brings it back to
where it began. `Feed.events` is this machine, and `Follows` says in terms of the states of an operator
that it is one. A call to open that has failed must be followed by a call to close before the next.
-/

namespace PagedQuery

/-- What an operator has to give: its pages, or why it does not open. -/
abbrev Feed := Except Failure (List Batch)

namespace Feed

/-- What a call of the machine comes to. It is closed, or open behind some of its pages. -/
def respond (feed : Feed) : Option Nat → Call → Event × Option Nat
  | none, .openUp =>
    match feed with
    | .ok _ => (.opened (.ok ()), some 0)
    | .error f => (.opened (.error f), none)
  | some k, .openUp => (.opened (.ok ()), some k)
  | none, .next => (.paged (.error (.error .notOpen)), none)
  | some k, .next =>
    match (feed.toOption.getD [])[k]? with
    | some page => (.paged (.ok (some page)), some (k + 1))
    | none => (.paged (.ok none), some k)
  | _, .close => (.closed (.ok ()), none)

def events (feed : Feed) : Option Nat → List Call → List Event
  | _, [] => []
  | place, call :: calls =>
    (feed.respond place call).1 :: feed.events (feed.respond place call).2 calls

end Feed

/-- Whether no call to open follows one that failed, unless there is a call to close in between. The
flag says whether there is one that failed to begin with. -/
def closesFailures : Bool → List Event → Bool
  | _, [] => true
  | failed, .opened (.ok _) :: events => !failed && closesFailures false events
  | failed, .opened (.error _) :: events => !failed && closesFailures true events
  | failed, .paged _ :: events => closesFailures failed events
  | _, .closed _ :: events => closesFailures false events

/-- What the states of an operator are like when it is closed, when it is closed behind an opening that
failed, and when it is open before some pages. -/
structure Standing (σ : Type) where
  closed : σ → Prop
  failed : σ → Prop
  before : List Batch → σ → Prop

/-- Whether an operator can be in a state at all. -/
def Standing.Possible {σ : Type} (p : Standing σ) (s : σ) : Prop :=
  p.closed s ∨ p.failed s ∨ ∃ pages, p.before pages s

/-- What states are like when nothing is said about them. -/
def Standing.any (σ : Type) : Standing σ := ⟨fun _ => True, fun _ => True, fun _ _ => True⟩

theorem Standing.possible_any {σ : Type} (s : σ) : (Standing.any σ).Possible s := .inl trivial

namespace Act

variable {σ τ α : Type} {root : TempRoot} {s : σ} {feed : Feed} {good : List Batch → σ → Prop}
  {bad : σ → Prop}

/-- Whether an action opens an operator that has to give this. -/
def Opens (x : Act σ Unit) (root : TempRoot) (s : σ) (feed : Feed) (good : List Batch → σ → Prop)
    (bad : σ → Prop) : Prop :=
  match feed with
  | .ok pages => ∃ t, good pages t ∧ x.Gives root s () t
  | .error f => x.FailsIn root s f bad

theorem Gives.bind_opens {x : Act σ α} {f : α → Act σ Unit} {a : α} {t : σ}
    (hx : x.Gives root s a t) (hf : (f a).Opens root t feed good bad) :
    (x >>= f).Opens root s feed good bad := by
  cases feed with
  | ok pages =>
    obtain ⟨u, hu, hgives⟩ := hf
    exact ⟨u, hu, hx.bind hgives⟩
  | error e => exact hx.bind_failsIn hf

theorem opens_get_bind {f : σ → Act σ Unit} :
    (get >>= f).Opens root s feed good bad ↔ (f s).Opens root s feed good bad := by
  cases feed <;> exact Iff.rfl

theorem gives_unless_isOpen (isOpen : σ → Bool) {x : Act σ Unit} (hopen : isOpen s = true) :
    (do unless isOpen (← get) do x : Act σ Unit).Gives root s () s := by
  apply gives_get_bind.mpr
  rw [if_pos hopen]
  exact gives_pure

theorem failsIn_notOpen (isOpen : σ → Bool) {x : σ → Act σ α} (hclosed : isOpen s = false) :
    (do let s ← get; if isOpen s then x s else fail .notOpen : Act σ α).FailsIn root s
      (.error .notOpen) (· = s) := by
  refine ensures_get_bind.mpr ?_
  rw [if_neg (by simp [hclosed])]
  exact ⟨rfl, rfl⟩

/-- A result that is needed for opening decides about the feed. -/
theorem opens_ofExcept_bind {answer : Except Error α} {f : α → Act σ Unit} {g : α → Feed}
    (hbad : bad s) (hf : ∀ a, answer = .ok a → (f a).Opens root s (g a) good bad) :
    (ofExcept answer >>= f).Opens root s (Failure.ofExcept answer >>= g) good bad := by
  cases answer with
  | ok a => exact hf a rfl
  | error e => exact FailsIn.bind ⟨rfl, hbad⟩

theorem opens_ofAnswer_bind {answer : Except Failure α} {f : α → Act σ Unit} {g : α → Feed}
    (hbad : bad s) (hf : ∀ a, answer = .ok a → (f a).Opens root s (g a) good bad) :
    (ofAnswer answer >>= f).Opens root s (answer >>= g) good bad := by
  cases answer with
  | ok a => exact hf a rfl
  | error e => exact FailsIn.bind ⟨rfl, hbad⟩

theorem Opens.within {part : σ → τ} {put : σ → τ → σ} {x : Act τ Unit}
    {goodPart : List Batch → τ → Prop} {badPart : τ → Prop}
    (hx : x.Opens root (part s) feed goodPart badPart) :
    (Act.within part put x).Opens root s feed (fun pages t => ∃ u, goodPart pages u ∧ t = put s u)
      fun t => ∃ u, badPart u ∧ t = put s u := by
  cases feed with
  | ok pages =>
    obtain ⟨u, hu, hgives⟩ := hx
    exact ⟨_, ⟨u, hu, rfl⟩, hgives.within⟩
  | error e => exact FailsIn.within hx

theorem Opens.within_bind {part : σ → τ} {put : σ → τ → σ} {x : Act τ Unit} {f : Unit → Act σ Unit}
    {g : List Batch → Feed} {goodChild : List Batch → τ → Prop} {badChild : τ → Prop}
    (hx : x.Opens root (part s) feed goodChild badChild) (hbad : ∀ u, badChild u → bad (put s u))
    (hf : ∀ pages u, feed = .ok pages → goodChild pages u →
      (f ()).Opens root (put s u) (g pages) good bad) :
    (Act.within part put x >>= f).Opens root s (feed >>= g) good bad := by
  cases feed with
  | ok pages =>
    obtain ⟨u, hu, hgives⟩ := hx
    exact hgives.within.bind_opens (hf pages u rfl hu)
  | error e =>
    refine FailsIn.bind ((FailsIn.within hx).mono ?_)
    rintro t ⟨u, hu, rfl⟩
    exact hbad u hu

end Act

/-- An operator that is a page machine with this feed. -/
structure Cursor.Follows {σ : Type} (c : Cursor σ) (root : TempRoot) (feed : Feed)
    (p : Standing σ) : Prop where
  start : p.closed c.start
  openUp : ∀ s, p.closed s → c.openUp.Opens root s feed p.before p.failed
  reopen : ∀ pages s, p.before pages s → c.openUp.Gives root s () s
  page : ∀ batch pages s, p.before (batch :: pages) s →
    ∃ t, p.before pages t ∧ c.next.Gives root s (some batch) t
  ending : ∀ s, p.before [] s → ∃ t, p.before [] t ∧ c.next.Gives root s none t
  refuse : ∀ s, p.closed s ∨ p.failed s → c.next.FailsIn root s (.error .notOpen) (· = s)
  close : ∀ s, p.Possible s → ∃ t, p.closed t ∧ c.close.Gives root s () t
  nonempty : ∀ pages s, p.before pages s → ∀ batch ∈ pages, batch.rows ≠ []

namespace Cursor.Follows

variable {σ : Type} {c : Cursor σ} {root : TempRoot} {feed : Feed} {p : Standing σ} {s t : σ}
  {pages front : List Batch}

/-- Whether an operator in this state is where the machine is. The flag says whether an opening has
failed. -/
inductive Tracks (feed : Feed) (p : Standing σ) : Option Nat → Bool → σ → Prop
  | closed {s : σ} (h : p.closed s) : Tracks feed p none false s
  | failed {s : σ} (h : p.failed s) : Tracks feed p none true s
  | before {s : σ} {pages : List Batch} {k : Nat} (hfeed : feed = .ok pages)
      (h : p.before (pages.drop k) s) : Tracks feed p (some k) false s

theorem Tracks.possible {place : Option Nat} {failed : Bool} (h : Tracks feed p place failed s) :
    p.Possible s := by
  cases h with
  | closed h => exact .inl h
  | failed h => exact .inr (.inl h)
  | before _ h => exact .inr (.inr ⟨_, h⟩)

/-- The operator and the machine go on in step. -/
theorem respond_eq (h : c.Follows root feed p) {place : Option Nat} {failed : Bool}
    (hs : Tracks feed p place failed s) {call : Call} {events : List Event}
    (hcloses : closesFailures failed ((c.respond root s call).1 :: events) = true) :
    (c.respond root s call).1 = (feed.respond place call).1 ∧
      ∃ failed', Tracks feed p (feed.respond place call).2 failed' (c.respond root s call).2 ∧
        closesFailures failed' events = true := by
  cases call with
  | openUp =>
    cases hs with
    | closed hs =>
      have hopens := h.openUp s hs
      cases feed with
      | ok pages =>
        obtain ⟨t, ht, hanswer, rfl⟩ := hopens
        simp only [respond, Feed.respond, hanswer] at hcloses ⊢
        exact ⟨trivial, false, .before rfl ht, hcloses⟩
      | error f =>
        obtain ⟨hanswer, ht⟩ := hopens
        simp only [respond, Feed.respond, hanswer] at hcloses ⊢
        exact ⟨trivial, true, .failed ht, hcloses⟩
    | failed hs =>
      rcases hanswer : (c.openUp.run root s).answer with f | _ <;>
        simp [respond, hanswer, closesFailures] at hcloses
    | before hfeed hs =>
      obtain ⟨hanswer, hstate⟩ := h.reopen _ s hs
      simp only [respond, Feed.respond, hanswer, hstate] at hcloses ⊢
      exact ⟨trivial, false, .before hfeed hs, hcloses⟩
  | next =>
    have hrefused (hs : p.closed s ∨ p.failed s) : c.next.FailsIn root s (.error .notOpen) (· = s) :=
      h.refuse s hs
    cases hs with
    | closed hs =>
      obtain ⟨hanswer, hstate⟩ := hrefused (.inl hs)
      simp only [respond, Feed.respond, hanswer, hstate] at hcloses ⊢
      exact ⟨trivial, false, .closed hs, hcloses⟩
    | failed hs =>
      obtain ⟨hanswer, hstate⟩ := hrefused (.inr hs)
      simp only [respond, Feed.respond, hanswer, hstate] at hcloses ⊢
      exact ⟨trivial, true, .failed hs, hcloses⟩
    | @before s pages k hfeed hs =>
      have hget : pages[k]? = (pages.drop k).head? := List.head?_drop.symm
      subst hfeed
      cases hrest : pages.drop k with
      | nil =>
        rw [hrest] at hs hget
        obtain ⟨t, ht, hanswer, rfl⟩ := h.ending s hs
        simp only [respond, Feed.respond, hanswer, Except.toOption, Option.getD_some, hget,
          List.head?_nil] at hcloses ⊢
        exact ⟨trivial, false, .before rfl (hrest ▸ ht), hcloses⟩
      | cons batch rest =>
        rw [hrest] at hs hget
        obtain ⟨t, ht, hanswer, rfl⟩ := h.page batch rest s hs
        have hbehind : pages.drop (k + 1) = rest := by
          rw [← List.tail_drop, hrest, List.tail_cons]
        simp only [respond, Feed.respond, hanswer, Except.toOption, Option.getD_some, hget,
          List.head?_cons] at hcloses ⊢
        exact ⟨trivial, false, .before rfl (hbehind ▸ ht), hcloses⟩
  | close =>
    obtain ⟨t, ht, hanswer, rfl⟩ := h.close s hs.possible
    have hplace : feed.respond place .close = (.closed (.ok ()), none) := by
      cases place <;> rfl
    simp only [respond, hanswer, hplace] at hcloses ⊢
    exact ⟨trivial, false, .closed ht, hcloses⟩

/-- Whatever calls are made of it, an operator answers as the machine does. -/
theorem events_eq (h : c.Follows root feed p) {calls : List Call}
    (hcloses : closesFailures false (c.events root c.start calls) = true) :
    c.events root c.start calls = feed.events none calls := by
  suffices hall : ∀ {place failed s}, Tracks feed p place failed s →
      closesFailures failed (c.events root s calls) = true →
      c.events root s calls = feed.events place calls from hall (.closed h.start) hcloses
  clear hcloses
  induction calls with
  | nil => exact fun _ _ => rfl
  | cons call calls ih =>
    intro place failed s hs hcloses
    obtain ⟨hevent, failed', ht, hcloses'⟩ := h.respond_eq hs hcloses
    simp only [events, Feed.events, hevent, ih ht hcloses']

theorem exists_yields (h : c.Follows root feed p) (hs : p.before (front ++ pages) s) :
    ∃ t, p.before pages t ∧ c.Yields root s front t := by
  induction front generalizing s with
  | nil => exact ⟨s, hs, .nil s⟩
  | cons batch front ih =>
    obtain ⟨t, ht, hnext⟩ := h.page batch _ s hs
    obtain ⟨u, hu, hyields⟩ := ih ht
    exact ⟨u, hu, .cons hnext (h.nonempty _ s hs batch List.mem_cons_self) hyields⟩

theorem exists_delivers (h : c.Follows root feed p) (hs : p.before pages s) :
    ∃ t, p.before [] t ∧ c.Delivers root s pages t := by
  rw [← List.append_nil pages] at hs
  obtain ⟨t, ht, hyields⟩ := h.exists_yields hs
  obtain ⟨u, hu, hnext⟩ := h.ending t ht
  exact ⟨u, hu, t, none, hyields, hnext, rfl⟩

/-- Taking some pages leads to where the operator is before others. -/
theorem exists_before_of_yields (h : c.Follows root feed p) (hs : p.before pages s)
    (hyields : c.Yields root s front t) : ∃ rest, p.before rest t := by
  induction hyields generalizing pages with
  | nil s => exact ⟨pages, hs⟩
  | cons hnext hrows hrest ih =>
    cases pages with
    | nil =>
      obtain ⟨u, hu, hend⟩ := h.ending _ hs
      cases (hnext.unique hend).1
    | cons batch pages =>
      obtain ⟨u, hu, hpage⟩ := h.page batch pages _ hs
      obtain ⟨-, rfl⟩ := hnext.unique hpage
      exact ih hu

theorem supplies (h : c.Follows root feed p) (hs : p.before pages s) :
    c.Supplies root (fun t => ∃ rest, p.before rest t) s pages := by
  induction pages generalizing s with
  | nil =>
    obtain ⟨t, ht, hnext⟩ := h.ending s hs
    exact .ended hnext ⟨[], ht⟩
  | cons batch pages ih =>
    obtain ⟨t, ht, hnext⟩ := h.page batch pages s hs
    exact .page hnext (h.nonempty _ s hs batch List.mem_cons_self) ⟨pages, ht⟩ (ih ht)

theorem handsPages (h : c.Follows root feed p) : c.HandsPages root p.before := ⟨h.page, h.ending⟩

/-- Being asked for a page, an operator stays in a state that it can be in. -/
theorem ensures_next_possible (h : c.Follows root feed p) (hs : p.Possible s) :
    c.next.Ensures root s fun _ t => p.Possible t := by
  have hrefused (hclosed : p.closed s ∨ p.failed s) :
      c.next.Ensures root s fun _ t => p.Possible t := by
    refine Act.Ensures.mono (h.refuse s hclosed) ?_
    rintro _ _ ⟨-, rfl⟩
    exact hs
  rcases hs with hs | hs | ⟨_ | ⟨batch, pages⟩, hs⟩
  · exact hrefused (.inl hs)
  · exact hrefused (.inr hs)
  · obtain ⟨t, ht, -, rfl⟩ := h.ending s hs
    exact .inr (.inr ⟨[], ht⟩)
  · obtain ⟨t, ht, -, rfl⟩ := h.page batch pages s hs
    exact .inr (.inr ⟨pages, ht⟩)

theorem exists_pages_of_gives (h : c.Follows root feed p) (hopen : c.openUp.Gives root c.start () s) :
    ∃ pages, feed = .ok pages := by
  cases feed with
  | ok pages => exact ⟨pages, rfl⟩
  | error f => exact absurd (Act.FailsIn.fails (h.openUp c.start h.start)) hopen.not_fails

/-- Executing an operator that opens gives the rows of its pages. -/
theorem exists_gives_execute (h : c.Follows root (.ok pages) p) :
    ∃ t, c.execute.Gives root c.start (pages.flatMap (·.rows)) t := by
  obtain ⟨s, hs, hopen⟩ := h.openUp c.start h.start
  obtain ⟨t, u, hyields, hend⟩ := (h.supplies hs).exists_yields
  exact ⟨u, hopen.bind ((hyields.drain hend).bind Act.gives_pure)⟩

end Cursor.Follows
end PagedQuery
