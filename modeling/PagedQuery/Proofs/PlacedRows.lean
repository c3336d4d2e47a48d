import PagedQuery.Operator.Project
import PagedQuery.Proofs.KeyOrder
import PagedQuery.Proofs.OperatorFeeds
import PagedQuery.Proofs.PackedPages

/-!
# Rows placed on pages

A call for a page puts rows on it one by one, and it may fail with rows on the page. What it has placed
is `placedOn`, however it ends. An operator that keeps account of what its calls place knows at its end
which rows it has given: all of them, but for those that calls had placed when they failed.
-/

namespace PagedQuery

section Filling

variable {σ : Type} {step : Act σ Step} {root : TempRoot} {s : σ} {Before : List Row → σ → Prop}

/-- The page that steps have filled when no more rows go on it, also if that is because one failed. -/
def gathered (step : Act σ Step) (root : TempRoot) : Nat → Draft → σ → Draft
  | 0, page, _ => page
  | steps + 1, page, s =>
    if page.isFull then page
    else
      match (step.run root s).answer with
      | .ok .skip => gathered step root steps page (step.run root s).state
      | .ok (.row row) =>
        match page.push? row with
        | some page => gathered step root steps page (step.run root s).state
        | none => page
      | _ => page

/-- The rows on the page that a call fills when it ends. -/
def placedOn (step : Act σ Step) (root : TempRoot) (steps capacity : Nat) (s : σ) : List Row :=
  match Draft.reserve capacity with
  | .ok page => (gathered step root steps page s).batch.rows
  | .error _ => []

def Step.rows : Except Failure Step → List Row
  | .ok (.row found) => [found]
  | _ => []

theorem exists_push?_of_not_full {page : Draft} (h : ¬page.isFull = true) (row : Row) :
    ∃ page', page.push? row = some page' ∧ page'.batch.rows = page.batch.rows ++ [row] := by
  have hfits := page.fits
  have hlength : page.batch.rows.length = page.latest.length := List.length_reverse
  have hroom : page.room ≠ 0 := by simpa [Draft.isFull] using h
  have hbatch : page.batch = ⟨page.capacity, page.batch.rows⟩ := rfl
  obtain ⟨page', hpush, hpage'⟩ := exists_push? hbatch (by omega) row
  exact ⟨page', hpush, congrArg Batch.rows hpage'⟩

/-- What is known of the rows that steps have brought is known of those on the page, however filling it
ends. -/
theorem gather_accounts (hstep : ∀ rows s, Before rows s →
      step.Ensures root s fun answer t => Before (rows ++ Step.rows answer) t)
    (role : PageRole) (steps : Nat) (rows : List Row) (page : Draft)
    (hs : Before (rows ++ page.batch.rows) s) :
    (gather role step steps page).Ensures root s fun answer t =>
      Before (rows ++ (gathered step root steps page s).batch.rows) t ∧
        ∀ batch, answer = .ok batch → batch = (gathered step root steps page s).batch := by
  induction steps generalizing page s with
  | zero => exact ⟨hs, fun batch h => (Except.ok.inj h).symm⟩
  | succ steps ih =>
    unfold gather gathered
    by_cases hfull : page.isFull = true
    · rw [if_pos hfull, if_pos hfull]
      exact ⟨hs, fun batch h => (Except.ok.inj h).symm⟩
    · rw [if_neg hfull, if_neg hfull]
      have hnext := hstep _ s hs
      rcases Act.gives_or_fails step root s with ⟨found, t, hgives⟩ | ⟨f, hfails⟩
      · have ht := hgives.ensured hnext
        obtain ⟨hanswer, rfl⟩ := id hgives
        rw [hanswer]
        refine hgives.bind_ensures ?_
        cases found with
        | done =>
          simp only [Step.rows, List.append_nil] at ht
          exact ⟨ht, fun batch h => (Except.ok.inj h).symm⟩
        | skip =>
          simp only [Step.rows, List.append_nil] at ht
          exact ih page ht
        | row row =>
          obtain ⟨page', hpush, hpage'⟩ := exists_push?_of_not_full hfull row
          rw [List.append_assoc, Step.rows, ← hpage'] at ht
          simp only [hpush]
          exact ih page' ht
      · have hanswer : (step.run root s).answer = .error f := hfails
        have ht : step.Ensures root s fun answer t =>
            answer = .error f ∧ Before (rows ++ page.batch.rows) t := by
          refine ⟨hfails, ?_⟩
          unfold Act.Ensures at hnext
          simpa only [hanswer, Step.rows, List.append_nil] using hnext
        rw [hanswer]
        exact ht.bind (fun _ t ht => ⟨ht.2, fun _ h => by cases h⟩) fun _ _ h => by cases h.1

theorem ensures_gather_eq (step : Act σ Step) (root : TempRoot) (s : σ) (role : PageRole) (steps : Nat)
    (page : Draft) : (gather role step steps page).Ensures root s fun answer _ =>
      ∀ batch, answer = .ok batch → batch = (gathered step root steps page s).batch := by
  have hstep : ∀ (_ : List Row) (s : σ), True → step.Ensures root s fun _ _ => True :=
    fun _ _ _ => trivial
  exact (gather_accounts hstep role steps [] page trivial).mono fun _ _ h => h.2

end Filling

def givenRows : Except Failure (Option Batch) → List Row
  | .ok (some page) => page.rows
  | _ => []

theorem Batch.nonempty?_eq_none {capacity : Nat} {rows : List Row}
    (h : nonempty? ⟨capacity, rows⟩ = none) : rows = [] := by
  cases rows with
  | nil => rfl
  | cons row rows => cases h

theorem givenRows_nonempty? (page : Batch) : givenRows (.ok page.nonempty?) = page.rows := by
  cases hrows : page.rows with
  | nil => simp [Batch.nonempty?, Batch.isEmpty, hrows, givenRows]
  | cons row rows => simp [Batch.nonempty?, Batch.isEmpty, hrows, givenRows]

/-- A page that is filled is given with all rows placed on it, or the call fails. -/
theorem fillPage_accounts {σ : Type} {step : Act σ Step} {root : TempRoot} {s : σ}
    {Before : List Row → σ → Prop} (hstep : ∀ rows s, Before rows s →
      step.Ensures root s fun answer t => Before (rows ++ Step.rows answer) t)
    (role : PageRole) (steps capacity : Nat) {rows : List Row} (hs : Before rows s) :
    (fillPage role step steps capacity).Ensures root s fun answer t =>
      Before (rows ++ placedOn step root steps capacity s) t ∧
        ∀ page, answer = .ok page →
          givenRows (.ok page) = placedOn step root steps capacity s := by
  unfold fillPage placedOn
  cases hreserve : Draft.reserve capacity with
  | error f => exact ⟨by rwa [List.append_nil], fun _ h => by cases h⟩
  | ok page =>
    obtain rfl := Draft.eq_empty_of_reserve hreserve
    have hempty : Before (rows ++ (Draft.empty capacity).batch.rows) s := by
      simpa [Batch.empty] using hs
    refine (gather_accounts hstep role steps rows _ hempty).bind ?_ ?_
    · rintro f t ⟨ht, -⟩
      exact ⟨ht, fun _ h => by cases h⟩
    · rintro batch t ⟨ht, hbatch⟩
      obtain rfl := hbatch batch rfl
      refine Act.ensures_pure.mpr ⟨ht, fun page hpage => ?_⟩
      obtain rfl := Except.ok.inj hpage
      exact givenRows_nonempty? _

namespace Cursor

variable {σ : Type} {c : Cursor σ} {root : TempRoot} {s : σ} {placed : σ → List Row}

def nth (c : Cursor σ) (root : TempRoot) (s : σ) (n : Nat) : σ :=
  c.after root s (List.replicate n .next)

def nthAnswer (c : Cursor σ) (root : TempRoot) (s : σ) (n : Nat) : Except Failure (Option Batch) :=
  (c.next.run root (c.nth root s n)).answer

def given (c : Cursor σ) (root : TempRoot) (s : σ) (n : Nat) : List Row :=
  (List.range n).flatMap fun k => givenRows (c.nthAnswer root s k)

theorem nth_succ (c : Cursor σ) (root : TempRoot) (s : σ) (n : Nat) :
    c.nth root s (n + 1) = (c.next.run root (c.nth root s n)).state := by
  rw [nth, List.replicate_succ', after_concat]
  rfl

theorem given_succ (c : Cursor σ) (root : TempRoot) (s : σ) (n : Nat) :
    c.given root s (n + 1) = c.given root s n ++ givenRows (c.nthAnswer root s n) := by
  rw [given, List.range_succ, List.flatMap_append, List.flatMap_singleton]
  rfl

/-- Whether the output of an operator has ended behind some calls, which have placed all of its rows
one after the other, and what is missing is what calls had placed when they failed. -/
structure EndsBehind (c : Cursor σ) (root : TempRoot) (placed : σ → List Row) (s : σ) (n : Nat)
    (all : List Row) : Prop where
  placed_eq : (List.range n).flatMap (fun k => placed (c.nth root s k)) = all
  givenRows_eq : ∀ k < n, ∀ page, c.nthAnswer root s k = .ok page →
    givenRows (.ok page) = placed (c.nth root s k)
  given_eq_iff : c.given root s n = all ↔
    ∀ k < n, ∀ f, c.nthAnswer root s k = .error f → placed (c.nth root s k) = []

/-- Whether an operator keeps account of what its calls place, until it has placed all rows. -/
def Accounts (c : Cursor σ) (root : TempRoot) (placed : σ → List Row)
    (Before All : List Row → σ → Prop) : Prop :=
  ∀ rows s, Before rows s → c.next.Ensures root s fun answer t => Before (rows ++ placed s) t ∧
    (∀ page, answer = .ok page → givenRows (.ok page) = placed s) ∧ (answer = .ok none → All rows t)

variable {Before All : List Row → σ → Prop}

theorem Accounts.before (h : c.Accounts root placed Before All) (hs : Before [] s) (n : Nat) :
    Before ((List.range n).flatMap fun k => placed (c.nth root s k)) (c.nth root s n) := by
  induction n with
  | zero => exact hs
  | succ n ih =>
    rw [nth_succ, List.range_succ, List.flatMap_append, List.flatMap_singleton]
    exact (h _ _ ih).1

/-- Parts of a list, each there as a whole or not at all, make up the list if none is missing. -/
theorem flatMap_range_eq_iff {α : Type} {part whole : Nat → List α} {n : Nat}
    (h : ∀ k < n, part k = whole k ∨ part k = []) :
    ((List.range n).flatMap part).length ≤ ((List.range n).flatMap whole).length ∧
      ((List.range n).flatMap part = (List.range n).flatMap whole ↔ ∀ k < n, part k = whole k) := by
  induction n with
  | zero => simp
  | succ n ih =>
    obtain ⟨hlength, hiff⟩ := ih fun k hk => h k (by omega)
    have hlast : (part n).length ≤ (whole n).length := by
      rcases h n (by omega) with hpart | hpart
      · exact Nat.le_of_eq (congrArg List.length hpart)
      · exact hpart ▸ Nat.zero_le _
    simp only [List.range_succ, List.flatMap_append, List.flatMap_singleton, List.length_append]
    refine ⟨Nat.add_le_add hlength hlast, fun heq => ?_, fun hall => ?_⟩
    · have htotal := congrArg List.length heq
      simp only [List.length_append] at htotal
      obtain ⟨hfront, hback⟩ := List.append_inj heq (by omega)
      intro k hk
      rcases Nat.lt_succ_iff_lt_or_eq.mp hk with hk | rfl
      · exact hiff.mp hfront k hk
      · exact hback
    · rw [hiff.mpr fun k hk => hall k (by omega), hall n (by omega)]

/-- At the end of its output, an operator that keeps account has placed all rows. -/
theorem Accounts.exists_endsBehind (h : c.Accounts root placed Before All) (hs : Before [] s) {n : Nat}
    (hend : c.nthAnswer root s n = .ok none) :
    ∃ all, All all (c.nth root s (n + 1)) ∧ c.EndsBehind root placed s n all := by
  have hlast := (h _ _ (h.before hs n)).2.2 hend
  rw [← nth_succ] at hlast
  have hgiven : ∀ k < n, ∀ page, c.nthAnswer root s k = .ok page →
      givenRows (.ok page) = placed (c.nth root s k) :=
    fun k _ page hpage => (h _ _ (h.before hs k)).2.1 page hpage
  refine ⟨_, hlast, rfl, hgiven, ?_⟩
  have hparts : ∀ k < n, givenRows (c.nthAnswer root s k) = placed (c.nth root s k) ∨
      givenRows (c.nthAnswer root s k) = [] := by
    intro k hk
    cases hanswer : c.nthAnswer root s k with
    | ok page => exact .inl (hgiven k hk page hanswer)
    | error f => exact .inr rfl
  rw [given, (flatMap_range_eq_iff hparts).2]
  constructor
  · intro heq k hk f hf
    rw [← heq k hk, hf]
    rfl
  · intro hnone k hk
    cases hanswer : c.nthAnswer root s k with
    | ok page => exact hgiven k hk page hanswer
    | error f =>
      rw [hnone k hk f hanswer]
      rfl

end Cursor

namespace Project

variable {σ : Type} {fields : List Nat} {child : Cursor σ} {root : TempRoot} {c : σ} {s : State σ}

def placed (fields : List Nat) (child : Cursor σ) (root : TempRoot) (s : State σ) : List Row :=
  if s.isOpen then placedOn (step fields child) root (steps child s) s.capacity s else []

/-- The projected rows of a page that the child has given. A page with a row that is too short is not
projected at all. -/
def projected (fields : List Nat) : Except Failure (Option Batch) → List Row
  | .ok (some page) => (page.rows.mapM (Row.project? · fields)).getD []
  | _ => []

/-- Whether these rows were taken from a projection whose child was asked for pages from this state on:
they and the pending ones are all the rows of these pages. -/
def HasTaken (fields : List Nat) (child : Cursor σ) (root : TempRoot) (c : σ) (rows : List Row)
    (s : State σ) : Prop :=
  0 < s.capacity ∧ ∃ m, s.child = child.nth root c m ∧
    (List.range m).flatMap (fun k => projected fields (child.nthAnswer root c k)) = rows ++ s.pending

theorem step_accounts (rows : List Row) (s : State σ) (hs : HasTaken fields child root c rows s) :
    (step fields child).Ensures root s fun answer t =>
      HasTaken fields child root c (rows ++ Step.rows answer) t := by
  obtain ⟨hc, m, hchild, hrows⟩ := hs
  apply Act.ensures_get_bind.mpr
  cases hpending : s.pending with
  | cons row pending =>
    refine Act.ensures_set_bind.mpr (Act.ensures_pure.mpr ⟨hc, m, hchild, ?_⟩)
    rw [hrows, hpending, Step.rows, List.append_assoc]
    rfl
  | nil =>
    rw [hpending, List.append_nil] at hrows
    have hasked : child.next.Ensures root s.child fun answer c' =>
        answer = child.nthAnswer root c m ∧ c' = child.nth root c (m + 1) := by
      rw [hchild, Cursor.nth_succ]
      exact ⟨rfl, rfl⟩
    have hmore (extra : List Row) (hextra : projected fields (child.nthAnswer root c m) = extra) :
        (List.range (m + 1)).flatMap (fun k => projected fields (child.nthAnswer root c k)) =
          rows ++ extra := by
      rw [List.range_succ, List.flatMap_append, List.flatMap_singleton, hrows, hextra]
    refine Act.Ensures.within_bind hasked ?_ ?_
    · rintro f c' ⟨hanswer, rfl⟩
      refine ⟨hc, m + 1, rfl, ?_⟩
      simp only [Step.rows, List.append_nil, hpending]
      simpa using hmore [] (by rw [← hanswer]; rfl)
    · rintro (_ | page) c' ⟨hanswer, rfl⟩
      · refine Act.ensures_pure.mpr ⟨hc, m + 1, rfl, ?_⟩
        simp only [Step.rows, List.append_nil, hpending]
        simpa using hmore [] (by rw [← hanswer]; rfl)
      · dsimp only
        cases hproject : page.rows.mapM (Row.project? · fields) with
        | none =>
          refine Act.ensures_abandon_bind.mpr ⟨hc, m + 1, rfl, ?_⟩
          simp only [Step.rows, List.append_nil, hpending]
          simpa using hmore [] (by rw [← hanswer, projected, hproject]; rfl)
        | some pending =>
          refine Act.ensures_pure_bind.mpr (Act.ensures_modify_bind.mpr (Act.ensures_pure.mpr ?_))
          refine ⟨hc, m + 1, rfl, ?_⟩
          simp only [Step.rows, List.append_nil]
          exact hmore pending (by rw [← hanswer, projected, hproject]; rfl)

theorem step_progress (fields : List Nat) (child : Cursor σ) (root : TempRoot) (s : State σ) :
    (step fields child).Ensures root s
      (Step.IsProgress (volume child) (fun _ => True) (·.pending = []) s) := by
  apply Act.ensures_get_bind.mpr
  cases hpending : s.pending with
  | cons row pending =>
    refine Act.ensures_set_bind.mpr (Act.ensures_pure.mpr ⟨trivial, ?_⟩)
    simp only [volume, hpending, List.length_cons]
    omega
  | nil =>
    refine Act.Ensures.within_bind (child.volume_next root s.child) (fun _ _ _ => trivial) ?_
    rintro (_ | page) c' hcost
    · exact Act.ensures_pure.mpr hpending
    · dsimp only
      cases hproject : page.rows.mapM (Row.project? · fields) with
      | none => exact trivial
      | some pending =>
        refine Act.ensures_pure_bind.mpr (Act.ensures_modify_bind.mpr (Act.ensures_pure.mpr ?_))
        refine ⟨trivial, ?_⟩
        simp only [pageCost, Batch.length] at hcost
        simp only [volume, hpending, length_of_mapM_eq_some hproject, List.length_nil]
        omega

theorem accounts (pageSize : Nat) (fields : List Nat) (child : Cursor σ) (root : TempRoot) (c : σ) :
    (cursor pageSize fields child).Accounts root (placed fields child root)
      (HasTaken fields child root c) fun rows t =>
        HasTaken fields child root c rows t ∧ t.pending = [] := by
  intro rows s hs
  apply Act.ensures_get_bind.mpr
  by_cases hopen : s.isOpen = true
  · rw [if_pos hopen, placed, if_pos hopen]
    obtain ⟨htaken, hgiven⟩ := fillPage_accounts step_accounts .projectionOutput (steps child s)
      s.capacity hs
    have hpacked : (fillPage .projectionOutput (step fields child) (steps child s) s.capacity).Ensures
        root s (Cursor.IsPacked s.capacity (fun _ => True) (·.pending = [])) :=
      ensures_fillPage_of_progress (fun t _ => step_progress fields child root t) _ trivial
        (Nat.lt_succ_self _)
    refine ⟨htaken, hgiven, fun hnone => ⟨?_, ?_⟩⟩
    · have hnothing : [] = placedOn (step fields child) root (steps child s) s.capacity s :=
        hgiven none hnone
      rwa [← hnothing, List.append_nil] at htaken
    · obtain ⟨found, hfound, ⟨hlength, -⟩ | ⟨-, hpending⟩⟩ := hpacked none hnone
      · obtain rfl : found = [] := Batch.nonempty?_eq_none hfound.symm
        exact absurd hlength (Nat.ne_of_lt hs.1)
      · exact hpending
  · rw [if_neg hopen, placed, if_neg hopen, List.append_nil]
    exact ⟨hs, fun _ h => (by cases h), fun h => by cases h⟩

theorem projected_eq {answer : Except Failure (Option Batch)}
    (h : ∀ row ∈ givenRows answer, Row.HasKey fields row) :
    projected fields answer = (givenRows answer).map (Row.keyOf fields) := by
  rcases answer with f | _ | page
  · rfl
  · rfl
  · have hrows : ∀ row ∈ page.rows, Row.HasKey fields row := h
    rw [projected, mapM_project?_of_hasKey hrows]
    rfl

/-- When a projection that was opened gives no more pages, its calls have placed the projections of all
rows that the child has given. -/
theorem exists_endsBehind (pageSize : Nat) (fields : List Nat) (child : Cursor σ) (root : TempRoot)
    {closed s : State σ} (hclosed : closed.isOpen = false)
    (hopen : (openUp pageSize fields child).Gives root closed () s) {n : Nat}
    (hend : (cursor pageSize fields child).nthAnswer root s n = .ok none) :
    ∃ m, ((cursor pageSize fields child).nth root s (n + 1)).child = child.nth root s.child m ∧
      ((∀ row ∈ child.given root s.child m, Row.HasKey fields row) →
        (cursor pageSize fields child).EndsBehind root (placed fields child root) s n
          ((child.given root s.child m).map (Row.keyOf fields))) := by
  have hstart : 0 < s.capacity ∧ s.pending = [] := by
    replace hopen := Act.gives_get_bind.mp hopen
    rw [if_neg (by simp [hclosed])] at hopen
    obtain ⟨capacity, hcapacity, hopen⟩ := hopen.of_ofAnswer_bind
    obtain ⟨_, _, hsized, hopen⟩ := hopen.of_bind
    obtain ⟨-, rfl⟩ := hsized.unique (Act.gives_modify _)
    obtain ⟨_, _, hchild, hopen⟩ := hopen.of_bind
    obtain ⟨c, -, rfl⟩ := hchild.of_within
    obtain ⟨-, rfl⟩ := hopen.unique (Act.gives_modify _)
    exact ⟨(Schema.of_pageCapacity hcapacity).2, rfl⟩
  have hs : HasTaken fields child root s.child [] s := ⟨hstart.1, 0, rfl, by rw [hstart.2]; rfl⟩
  obtain ⟨all, ⟨⟨-, m, hchild, hall⟩, hpending⟩, hends⟩ :=
    (accounts pageSize fields child root s.child).exists_endsBehind hs hend
  refine ⟨m, hchild, fun hkeys => ?_⟩
  rw [hpending, List.append_nil] at hall
  have hprojected : (child.given root s.child m).map (Row.keyOf fields) = all := by
    rw [← hall, Cursor.given, List.map_flatMap]
    refine List.flatMap_congr fun k hk => (projected_eq fun row hrow => hkeys row ?_).symm
    exact List.mem_flatMap.mpr ⟨k, hk, hrow⟩
  rwa [hprojected]

end Project
end PagedQuery
