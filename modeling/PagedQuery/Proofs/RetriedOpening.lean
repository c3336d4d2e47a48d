import PagedQuery.Proofs.Reopening

/-!
# Retried openings

An operator that fails to open has given back what it took for itself, but its children stay open,
and the pages that it has read of them are gone. When it is told to open again, it goes on reading
where it has stopped. Over a source of rows in memory it then does what a new operator would do over
a source that begins with the rows left.
-/

namespace PagedQuery

namespace RowSource

variable {pageSize : Nat} {schema : Schema} {rows rest : List Row} {root : TempRoot} {s t : State}

/-- Whether these are the rows that a source has to give once it is told to open. A source that is
open already has what is left of its rows. -/
inductive IsBefore (pageSize : Nat) (schema : Schema) (rows : List Row) : List Row → State → Prop
  | closed : IsBefore pageSize schema rows rows none
  | opened {capacity : Nat} {rest : List Row}
      (hcapacity : schema.pageCapacity pageSize = .ok capacity)
      (hrest : rest <:+ rows) :
      IsBefore pageSize schema rows rest (some (Batch.pages capacity rest))

theorem keeps_isBefore (pageSize : Nat) (schema : Schema) (rows : List Row) (root : TempRoot) :
    (cursor pageSize schema rows).Keeps root fun s =>
      ∃ rest, IsBefore pageSize schema rows rest s where
  openUp := by
    rintro _ ⟨rest, hs⟩
    cases hs with
    | closed =>
      refine Act.ensures_get_bind.mpr (Act.ensures_ofAnswer_bind (fun capacity hcapacity => ?_) ?_)
      · exact Act.ensures_set.mpr ⟨rows, .opened hcapacity (List.suffix_refl rows)⟩
      · exact fun _ _ => ⟨rows, .closed⟩
    | opened hcapacity hrest => exact Act.ensures_get_bind.mpr ⟨rest, .opened hcapacity hrest⟩
  next := by
    rintro _ ⟨rest, hs⟩
    apply Act.ensures_get_bind.mpr
    cases hs with
    | closed => exact ⟨rows, .closed⟩
    | @opened capacity _ hcapacity hrest =>
      have hc := (Schema.of_pageCapacity hcapacity).2
      cases hpages : Batch.pages capacity rest with
      | nil =>
        refine Act.ensures_pure.mpr ⟨rest, ?_⟩
        rw [← hpages]
        exact .opened hcapacity hrest
      | cons page pages =>
        obtain ⟨-, rfl⟩ := Batch.of_pages_eq_cons hc hpages
        exact ⟨_, .opened hcapacity ((List.drop_suffix capacity rest).trans hrest)⟩
  close _ _ := ⟨rows, .closed⟩

/-- A source that is told to open before it has given any row opens as if it were closed. -/
theorem gives_openUp_of_isBefore (hs : IsBefore pageSize schema rows rows s) {capacity : Nat}
    (hcapacity : schema.pageCapacity pageSize = .ok capacity) :
    (cursor pageSize schema rows).openUp.Gives root s () (some (Batch.pages capacity rows)) := by
  cases hs with
  | closed => exact Act.gives_get_bind.mpr ((Act.gives_ofAnswer hcapacity).bind Act.gives_set)
  | opened hcapacity' _ =>
    obtain rfl := Except.ok.inj (hcapacity.symm.trans hcapacity')
    exact Act.gives_get_bind.mpr Act.gives_pure

/-- Sources that have given no row yet. -/
def BothWhole (pageSize : Nat) (schema : Schema) (rows : List Row) (s t : State) : Prop :=
  IsBefore pageSize schema rows rows s ∧ IsBefore pageSize schema rows rows t

/-- It does not matter whether a source that has given no row yet is open. -/
theorem opensAlike_bothWhole (pageSize : Nat) (schema : Schema) (rows : List Row) :
    (cursor pageSize schema rows).OpensAlike
      (Relation.ReflGen (BothWhole pageSize schema rows)) where
  refl _ := .refl
  openUp root s t hst := by
    cases hst with
    | refl => exact .refl (.refl fun _ => .refl)
    | single hst =>
      obtain ⟨hs, ht⟩ := hst
      cases hcapacity : schema.pageCapacity pageSize with
      | ok capacity =>
        have hopens : ∀ u, IsBefore pageSize schema rows rows u →
            (cursor pageSize schema rows).openUp.Gives root u () (some (Batch.pages capacity rows)) :=
          fun u hu => gives_openUp_of_isBefore hu hcapacity
        obtain ⟨hs, hs'⟩ := hopens s hs
        obtain ⟨ht, ht'⟩ := hopens t ht
        exact ⟨hs.trans ht.symm, by rw [hs, hs', ht']; exact rfl⟩
      | error e =>
        -- Without a capacity the source has never been open.
        have hclosed : ∀ u, IsBefore pageSize schema rows rows u → u = none := by
          intro u hu
          cases hu with
          | closed => rfl
          | opened h _ => cases hcapacity.symm.trans h
        rw [hclosed s hs, hclosed t ht]
        exact .refl (.refl fun _ => .refl)
  close root s t hst := ⟨rfl, .refl⟩

end RowSource

/-- An attempt to open that fails. -/
def Cursor.FailsToOpen {σ : Type} (c : Cursor σ) (s t : σ) : Prop :=
  ∃ root f, c.openUp.FailsIn root s f (· = t)

/-- What an attempt to open keeps if it fails, any number of them keep. -/
theorem Cursor.FailsToOpen.keeps {σ : Type} {c : Cursor σ} {P : σ → Prop}
    (h : ∀ root s, P s → c.openUp.Ensures root s fun answer t => ∀ f, answer = .error f → P t)
    {s t : σ} (hst : Relation.ReflTransGen c.FailsToOpen s t) (hs : P s) : P t := by
  induction hst with
  | refl => exact hs
  | tail _ hfails ih =>
    obtain ⟨root, f, hanswer, rfl⟩ := hfails
    exact h root _ ih f hanswer

/-- Whether an operator keeps its states of a kind, and can be closed in them. -/
structure Cursor.IsCalm {σ : Type} (c : Cursor σ) (P : σ → Prop) : Prop where
  keeps : ∀ root, c.Keeps root P
  closes : ∀ root s, P s → ∃ t, c.close.Gives root s () t

theorem RowSource.isCalm (pageSize : Nat) (schema : Schema) (rows : List Row) :
    (cursor pageSize schema rows).IsCalm fun s => ∃ rest, IsBefore pageSize schema rows rest s where
  keeps := keeps_isBefore pageSize schema rows
  closes _ _ _ := ⟨none, rfl, rfl⟩

namespace MergeSort

variable {σ : Type} {spec : SortSpec} {child : Cursor σ} {P : σ → Prop} {root : TempRoot}
  {s t : State σ} {capacity : Nat}

/-- A closed sort without runs, over a child in a state of a kind. -/
def IsEmptied (P : σ → Prop) (s : State σ) : Prop :=
  ∃ c capacity stats, P c ∧ s = emptied c false capacity stats

theorem takePages_keeps (h : child.Keeps root P) (steps : Nat) (blockAndPage : Block × Draft)
    (hs : P s.child) : (takePages spec child capacity steps blockAndPage).Ensures root s fun _ t =>
      t.isOpen = s.isOpen ∧ P t.child := by
  induction steps generalizing s blockAndPage with
  | zero => exact ⟨rfl, hs⟩
  | succ steps ih =>
    refine Act.Ensures.within_bind (h.next s.child hs) (fun _ _ hc => ⟨rfl, hc⟩) ?_
    rintro (_ | batch) c hc
    · exact ⟨rfl, hc⟩
    · dsimp only
      split
      · exact ⟨rfl, hc⟩
      · have hruns : (onRuns (batch.rows.foldlM (RunSet.takeRow spec capacity) blockAndPage)).Ensures
            root { s with child := c } fun _ t => t.isOpen = s.isOpen ∧ P t.child := ⟨rfl, hc⟩
        refine hruns.bind (fun _ _ ht => ht) fun _ t ht => (ih _ ht.2).mono fun _ u hu => ?_
        exact ⟨hu.1.trans ht.1, hu.2⟩

theorem sortInput_keeps (spec : SortSpec) (capacity : Nat) (h : child.Keeps root P)
    (hs : P s.child) : (sortInput spec child capacity).Ensures root s fun _ t =>
      t.isOpen = s.isOpen ∧ P t.child := by
  have hruns {α : Type} (x : Act RunSet α) {t : State σ} (ht : t.isOpen = s.isOpen ∧ P t.child) :
      (onRuns x).Ensures root t fun _ u => u.isOpen = s.isOpen ∧ P u.child := ht
  apply Act.ensures_tempRoot_bind.mpr
  split
  · exact Act.ensures_fail.mpr ⟨rfl, hs⟩
  refine (hruns _ ⟨rfl, hs⟩).bind (fun _ _ ht => ht) fun _ t ht => ?_
  have hgenerate : (generateRuns spec child capacity).Ensures root t fun _ u =>
      u.isOpen = s.isOpen ∧ P u.child := by
    apply Act.ensures_get_bind.mpr
    cases Block.reserve spec.numBuffers capacity with
    | error f => exact ht
    | ok block =>
      cases Draft.reserve capacity with
      | error f => exact ht
      | ok page =>
        refine (takePages_keeps (s := t) h _ (block, page) ht.2).bind ?_ ?_
        · exact fun _ u hu => ⟨hu.1.trans ht.1, hu.2⟩
        · exact fun _ u hu => hruns _ ⟨hu.1.trans ht.1, hu.2⟩
  refine hgenerate.bind (fun _ _ hu => hu) fun _ u hu => ?_
  refine (hruns _ hu).bind (fun _ _ hv => hv) fun _ v hv => ?_
  refine (hruns _ hv).bind (fun _ _ hw => hw) fun _ w hw => ?_
  exact Act.ensures_modify.mpr hw

/-- A closed sort that fails to open is without runs again. -/
theorem openUp_keeps (spec : SortSpec) (h : child.Keeps root P) (hs : IsEmptied P s) :
    (openUp spec child).Ensures root s fun answer t =>
      P t.child ∧ ∀ f, answer = .error f → IsEmptied P t := by
  obtain ⟨c, n, stats, hc, rfl⟩ := hs
  have hstays {c : σ} {n : Nat} {answer : Except Failure Unit} (hc : P c) :
      P (emptied c false n stats).child ∧ ∀ f, answer = .error f →
        IsEmptied P (emptied c false n stats) := ⟨hc, fun _ _ => ⟨c, n, stats, hc, rfl⟩⟩
  apply Act.ensures_get_bind.mpr
  rw [if_neg (by simp [emptied])]
  refine Act.ensures_ofExcept_bind (fun _ _ => ?_) fun _ _ => hstays hc
  refine Act.ensures_ofAnswer_bind (fun capacity _ => ?_) fun _ _ => hstays hc
  apply Act.ensures_modify_bind.mpr
  refine Act.ensures_ofExcept_bind (fun _ _ => ?_) fun _ _ => hstays hc
  refine Act.Ensures.within_bind (h.openUp c hc) (fun _ d hd => hstays hd) fun _ d hd => ?_
  have hkeeps := sortInput_keeps (s := emptied d false capacity stats) spec capacity h hd
  rcases Act.gives_or_fails (sortInput spec child capacity) root (emptied d false capacity stats)
    with ⟨_, t, hsort⟩ | ⟨f, hsort⟩
  · refine hsort.attempt.bind_ensures (Act.ensures_modify.mpr ⟨(hsort.ensured hkeeps).2, ?_⟩)
    exact fun _ hok => by cases hok
  · have hfails : (sortInput spec child capacity).FailsIn root (emptied d false capacity stats) f
        fun u => u.isOpen = false ∧ P u.child := ⟨hsort, hkeeps⟩
    refine Act.Ensures.mono (failsIn_sortOrRelease hfails) ?_
    rintro answer _ ⟨-, u, ⟨hopen, hu⟩, rfl⟩
    exact ⟨hu, fun _ _ => ⟨u.child, u.capacity, u.work.stats, hu, by rw [emptied, hopen]⟩⟩

/-- How opening a closed sort ends: with its final run to read, or closed. -/
def EndsOver (spec : SortSpec) (P : σ → Prop) (answer : Except Failure Unit) (t : State σ) : Prop :=
  match answer with
  | .ok () => P t.child ∧ t.isOpen = true ∧ HoldsFinalRun spec t
  | .error _ => IsEmptied P t

theorem ensures_openUp_of_emptied (spec : SortSpec) (h : child.Keeps root P) (hs : IsEmptied P s) :
    (openUp spec child).Ensures root s (EndsOver spec P) := by
  have hends : (openUp spec child).Ensures root s (EndsOpening spec) := by
    obtain ⟨c, n, stats, -, rfl⟩ := hs
    exact ensures_openUp_of_closed rfl fun _ => ⟨rfl, rfl⟩
  have hkeeps := openUp_keeps spec h hs
  unfold Act.Ensures at hends hkeeps ⊢
  cases hanswer : ((openUp spec child).run root s).answer with
  | ok =>
    rw [hanswer] at hends
    exact ⟨hkeeps.1, hends⟩
  | error f => exact hkeeps.2 f hanswer

/-- Closing a sort whose child can be closed empties it. -/
theorem ensures_close_of_isCalm (h : child.IsCalm P) (root : TempRoot) (hs : P s.child) :
    (close child).Ensures root s fun _ t => IsEmptied P t := by
  refine (ensures_close_emptied child root s).mono ?_
  rintro answer t ⟨ht, hclosed, hopen⟩
  obtain ⟨d, hcloses⟩ := h.closes root s.child hs
  obtain ⟨rfl, hchild⟩ := hcloses.ensured hclosed
  have hd : P d := hcloses.ensured ((h.keeps root).close s.child hs)
  have hisOpen : t.isOpen = false := by
    refine Bool.eq_false_iff.mpr fun hstuck => ?_
    obtain ⟨-, f, hf⟩ := hopen.mp hstuck
    cases hf
  exact ⟨t.child, s.capacity, s.work.stats, hchild ▸ hd, hisOpen ▸ ht⟩

theorem exists_gives_next (spec : SortSpec) (child : Cursor σ) (root : TempRoot)
    (hopen : s.isOpen = true) (hrun : HoldsFinalRun spec s) :
    ∃ answer t, (cursor spec child).next.Gives root s answer t := by
  obtain ⟨folder, name, content, batches, reader, capacity, -, -, -, -, -, hreader, hreads⟩ := hrun
  cases supplies_of_handsOut spec child root hreads hopen hreader rfl with
  | ended hnext _ => exact ⟨_, _, hnext⟩
  | page hnext _ _ _ => exact ⟨_, _, hnext⟩

theorem isEmptied_of_fails (spec : SortSpec) (h : ∀ root, child.Keeps root P)
    (hstart : P child.start)
    (hs : Relation.ReflTransGen (cursor spec child).FailsToOpen (cursor spec child).start s) :
    IsEmptied P s :=
  Cursor.FailsToOpen.keeps (fun root s hs => (openUp_keeps (s := s) spec (h root) hs).mono
    fun _ _ ht => ht.2) hs ⟨child.start, 0, {}, hstart, rfl⟩

end MergeSort

namespace Distinct

variable {σ : Type} {child : Cursor σ} {P : σ → Prop} {s : State (MergeSort.State σ)}

theorem isEmptied_of_fails (pageSize numBuffers : Nat) (h : ∀ root, child.Keeps root P)
    (hstart : P child.start)
    (hs : Relation.ReflTransGen (cursor pageSize numBuffers child).FailsToOpen
      (cursor pageSize numBuffers child).start s) :
    s.isOpen = false ∧ MergeSort.IsEmptied P s.sort := by
  refine Cursor.FailsToOpen.keeps (P := fun s => s.isOpen = false ∧ MergeSort.IsEmptied P s.sort)
    (fun root s hs => ?_) hs ⟨rfl, child.start, 0, {}, hstart, rfl⟩
  obtain ⟨hopen, hsort⟩ := hs
  apply Act.ensures_get_bind.mpr
  rw [if_neg (by simp [hopen])]
  refine Act.ensures_ofAnswer_bind (fun capacity _ => ?_) fun _ _ _ _ => ⟨hopen, hsort⟩
  apply Act.ensures_modify_bind.mpr
  refine Act.Ensures.within_bind (MergeSort.openUp_keeps _ (h root) hsort) ?_ ?_
  · intro f t ht f' hf'
    exact ⟨hopen, ht.2 f rfl⟩
  · exact fun _ _ _ => Act.ensures_modify.mpr fun _ hok => by cases hok

end Distinct

namespace Aggregate

variable {σ : Type} {child : Cursor σ} {P : σ → Prop} {root : TempRoot} {s : State σ}
  {columns : List AggregateColumn}

/-- A closed aggregation that holds nothing, over a child in a state of a kind. -/
def IsEmptied (P : σ → Prop) (s : State σ) : Prop := ∃ c capacity, P c ∧ s = emptied c capacity

theorem takePages_keeps (h : child.Keeps root P) (steps : Nat) (intake : Intake) (hs : P s.child) :
    (takePages child steps intake).Ensures root s fun _ t => ∃ c folder, P c ∧
      t = { s with child := c, folder } := by
  induction steps generalizing s intake with
  | zero => exact ⟨s.child, s.folder, hs, rfl⟩
  | succ steps ih =>
    refine Act.Ensures.within_bind (h.next s.child hs) (fun _ c hc => ⟨c, s.folder, hc, rfl⟩) ?_
    rintro (_ | batch) c hc
    · exact ⟨c, s.folder, hc, rfl⟩
    · have hrows : (onFolder (batch.rows.foldlM Intake.takeRow intake)).Ensures root
          { s with child := c } fun _ t => ∃ folder, t = { s with child := c, folder } := ⟨_, rfl⟩
      refine hrows.bind (fun _ _ ⟨folder, ht⟩ => ⟨c, folder, hc, ht⟩) ?_
      rintro intake _ ⟨folder, rfl⟩
      exact ih (s := { s with child := c, folder }) intake hc

/-- Taking the child's rows in moves nothing but the child and the folder, if it fails. -/
theorem consume_keeps (columns : List AggregateColumn) (spoolCapacity : Nat)
    (h : child.Keeps root P) (hs : P s.child) :
    (consume columns child spoolCapacity).Ensures root s fun answer t => ∀ f, answer = .error f →
      ∃ c folder, P c ∧ t = { s with child := c, folder } := by
  have hstart : (onFolder (startSpool columns)).Ensures root s fun _ t =>
      ∃ folder, t = { s with folder } := ⟨_, rfl⟩
  refine hstart.bind (fun _ _ ⟨folder, ht⟩ _ _ => ⟨s.child, folder, hs, ht⟩) ?_
  rintro writer _ ⟨folder, rfl⟩
  refine Act.ensures_ofAnswer_bind (fun page _ => ?_) fun _ _ _ _ => ⟨s.child, folder, hs, rfl⟩
  apply Act.ensures_get_bind.mpr
  refine (takePages_keeps (s := { s with folder }) h _ _ hs).bind (fun _ _ ht _ _ => ht) ?_
  intro intake t ht
  have hlast (u : State σ) : (modify fun s => { s with
      results := intake.tallies.map (·.result), inputCount := intake.count } :
      Act (State σ) PUnit).Ensures root u fun answer t => ∀ f, answer = .error f →
        ∃ c folder, P c ∧ t = { s with child := c, folder } :=
    Act.ensures_modify.mpr fun _ hok => by cases hok
  cases hspooled : intake.spool with
  | none => exact hlast t
  | some spool =>
    obtain ⟨c, folder, hc, rfl⟩ := ht
    have hfinish : (onFolder (RunFile.inFolder (finishSpool spoolCapacity spool))).Ensures root
        { s with child := c, folder } fun _ u => ∃ folder', u = { s with child := c, folder := folder' } :=
      ⟨_, rfl⟩
    refine hfinish.bind (fun _ _ ⟨folder', hu⟩ _ _ => ⟨c, folder', hc, hu⟩) fun _ u _ => ?_
    exact Act.ensures_modify_bind.mpr (hlast _)

theorem isEmptied_of_fails (pageSize : Nat) (columns : List AggregateColumn)
    (h : ∀ root, child.Keeps root P) (hstart : P child.start)
    (hs : Relation.ReflTransGen (cursor pageSize columns child).FailsToOpen
      (cursor pageSize columns child).start s) : IsEmptied P s := by
  refine Cursor.FailsToOpen.keeps (P := IsEmptied P) (fun root s hs => ?_) hs
    ⟨child.start, 0, hstart, rfl⟩
  obtain ⟨c, n, hc, rfl⟩ := hs
  have hstays {c : σ} {n : Nat} (hc : P c) : IsEmptied P (emptied c n) := ⟨c, n, hc, rfl⟩
  apply Act.ensures_get_bind.mpr
  rw [if_neg (by simp [emptied])]
  refine Act.ensures_ofExcept_bind (fun _ _ => ?_) fun _ _ _ _ => hstays hc
  refine Act.ensures_ofAnswer_bind (fun capacity _ => ?_) fun _ _ _ _ => hstays hc
  refine Act.ensures_ofAnswer_bind (fun spoolCapacity _ => ?_) fun _ _ _ _ => hstays hc
  apply Act.ensures_modify_bind.mpr
  refine Act.Ensures.within_bind ((h root).openUp c hc) (fun _ d hd _ _ => hstays hd) ?_
  intro _ d hd
  refine (consume_keeps (s := emptied d capacity) columns spoolCapacity (h root) hd).attempt_bind ?_
  rintro (f | _) t ht
  · obtain ⟨e, folder, he, rfl⟩ := ht f rfl
    exact Act.ensures_modify_bind.mpr fun _ _ => ⟨e, capacity, he, rfl⟩
  · exact Act.ensures_modify.mpr fun _ hok => by cases hok

end Aggregate

namespace Join

variable {σ τ : Type} {left : Cursor σ} {right : Cursor τ} {P : σ → Prop} {Q : τ → Prop}
  {root : TempRoot} {s : State (MergeSort.State σ) (MergeSort.State τ)}

/-- A closed join of sorts without runs, over children in states of a kind. -/
structure IsEmptied (P : σ → Prop) (Q : τ → Prop)
    (s : State (MergeSort.State σ) (MergeSort.State τ)) : Prop where
  phase : ∃ capacity, phase s = (false, false, capacity)
  left : MergeSort.IsEmptied P s.left.source
  right : MergeSort.IsEmptied Q s.right.source

theorem gives_load {σ τ : Type} {left : Cursor σ} {right : Cursor τ} {s : State σ τ}
    {answer answer' : Option Batch} {c : σ} {d : τ}
    (hleft : left.next.Gives root s.left.source answer c)
    (hright : right.next.Gives root s.right.source answer' d) :
    ∃ t, (do
      onLeft (Side.load left)
      onRight (Side.load right)
      modify fun s => { s with isAtEnd := false, isOpen := true } : Act (State σ τ) Unit).Gives root
        s () t := by
  have hfirst : (Side.load left).Gives root s.left () _ :=
    Act.Gives.bind (Act.Gives.within hleft) (Act.gives_modify _)
  have hsecond : (Side.load right).Gives root s.right () _ :=
    Act.Gives.bind (Act.Gives.within hright) (Act.gives_modify _)
  exact ⟨_, Act.Gives.bind (Act.Gives.within hfirst)
    (Act.Gives.bind (Act.Gives.within hsecond) (Act.gives_modify _))⟩

/-- A closed join that fails to open is closed over closed sorts again. -/
theorem openUp_keeps (pageSize numBuffers : Nat) (keys : Keys) (hleft : left.IsCalm P)
    (hright : right.Keeps root Q) (hs : IsEmptied P Q s) :
    (cursor pageSize numBuffers keys left right).openUp.Ensures root s fun answer t =>
      ∀ f, answer = .error f → IsEmptied P Q t := by
  obtain ⟨⟨n, hphase⟩, hl, hr⟩ := hs
  have hopen : s.isOpen = false := congrArg Prod.fst hphase
  apply Act.ensures_get_bind.mpr
  rw [if_neg (by simp [hopen])]
  refine Act.ensures_ofExcept_bind (fun _ _ => ?_) fun _ _ _ _ => ⟨⟨n, hphase⟩, hl, hr⟩
  refine Act.ensures_ofAnswer_bind (fun capacity _ => ?_) fun _ _ _ _ => ⟨⟨n, hphase⟩, hl, hr⟩
  apply Act.ensures_modify_bind.mpr
  let leftSpec := sortSpec pageSize numBuffers "left" keys.left
  let rightSpec := sortSpec pageSize numBuffers "right" keys.right
  let sized : State (MergeSort.State σ) (MergeSort.State τ) := { s with capacity }
  have hsized : Join.phase sized = (false, false, capacity) := by
    simp only [Join.phase, Prod.mk.injEq] at hphase ⊢
    exact ⟨hphase.1, hphase.2.1, rfl⟩
  have hopenLeft : (onLeft (Side.onSource (MergeSort.openUp leftSpec left))).Ensures root sized
      fun answer t => Join.phase t = (false, false, capacity) ∧
        MergeSort.IsEmptied Q t.right.source ∧ MergeSort.EndsOver leftSpec P answer t.left.source :=
    ⟨hsized, hr, MergeSort.ensures_openUp_of_emptied _ (hleft.keeps root) hl⟩
  refine hopenLeft.bind ?_ ?_
  · rintro f t ⟨ht, hr, hl⟩ _ _
    exact ⟨⟨capacity, ht⟩, hl, hr⟩
  rintro _ t ⟨ht, hr, hchild, hl, hleftRun⟩
  have hopenRight : (onRight (Side.onSource (MergeSort.openUp rightSpec right))).Ensures root t
      fun answer u => Join.phase u = (false, false, capacity) ∧ u.left.source = t.left.source ∧
        MergeSort.EndsOver rightSpec Q answer u.right.source :=
    ⟨ht, rfl, MergeSort.ensures_openUp_of_emptied _ hright hr⟩
  refine hopenRight.attempt_bind ?_
  rintro (f | _) u ⟨hu, hsource, hends⟩
  · -- The left sort is closed again, and its child can be closed.
    have hclose : (onLeft (Side.onSource (MergeSort.close left))).Ensures root u
        fun _ v => IsEmptied P Q v := by
      have hchild' : P u.left.source.child := hsource ▸ hchild
      have hclosed := MergeSort.ensures_close_of_isCalm hleft root hchild'
      refine Act.ensures_within.mpr (Act.ensures_within.mpr (hclosed.mono fun _ c hc => ?_))
      exact ⟨⟨capacity, hu⟩, hc, hends⟩
    exact hclose.attempt_bind fun _ v hv _ _ => hv
  · obtain ⟨-, hr, hrightRun⟩ := hends
    obtain ⟨_, c, hnextLeft⟩ := MergeSort.exists_gives_next leftSpec left root hl hleftRun
    obtain ⟨_, d, hnextRight⟩ := MergeSort.exists_gives_next rightSpec right root hr hrightRun
    rw [← hsource] at hnextLeft
    obtain ⟨v, hload⟩ := gives_load (s := reset u) hnextLeft hnextRight
    refine Act.ensures_modify_bind.mpr (Act.Ensures.mono hload ?_)
    rintro _ _ ⟨rfl, -⟩ f hf
    cases hf

theorem isEmptied_of_fails (pageSize numBuffers : Nat) (keys : Keys) (hleft : left.IsCalm P)
    (hright : ∀ root, right.Keeps root Q) (hstart : P left.start) (hstart' : Q right.start)
    (hs : Relation.ReflTransGen (cursor pageSize numBuffers keys left right).FailsToOpen
      (cursor pageSize numBuffers keys left right).start s) : IsEmptied P Q s :=
  Cursor.FailsToOpen.keeps
    (fun root _ hs => openUp_keeps pageSize numBuffers keys hleft (hright root) hs) hs
    ⟨⟨0, rfl⟩, ⟨left.start, 0, {}, hstart, rfl⟩, ⟨right.start, 0, {}, hstart', rfl⟩⟩

end Join

/-- Operators over rows in memory that have failed to open any number of times. Each does from then
on what a new one does over a source that begins where the attempts have left it; that source has to
give the last rows, and the operator does what it would have done at first if these are all. -/
theorem RowSource.goes_on_after_failed_openings (pageSize : Nat) (schema : Schema) (rows : List Row)
    (otherPageSize : Nat) (otherSchema : Schema) (otherRows : List Row) :
    let source := RowSource.cursor pageSize schema rows
    let other := RowSource.cursor otherPageSize otherSchema otherRows
    (∀ (spec : SortSpec) (s : MergeSort.State State),
      let sort := MergeSort.cursor spec source
      Relation.ReflTransGen sort.FailsToOpen sort.start s →
        ∃ rest, IsBefore pageSize schema rows rest s.child ∧
          sort.AnswersAs s (MergeSort.cursor spec (source.startingAt s.child)) ∧
          (rest = rows → sort.AnswersAs s sort)) ∧
    (∀ (outPageSize numBuffers : Nat) (s : Distinct.State (MergeSort.State State)),
      let distinct := Distinct.cursor outPageSize numBuffers source
      Relation.ReflTransGen distinct.FailsToOpen distinct.start s →
        ∃ rest, IsBefore pageSize schema rows rest s.sort.child ∧
          distinct.AnswersAs s
            (Distinct.cursor outPageSize numBuffers (source.startingAt s.sort.child)) ∧
          (rest = rows → distinct.AnswersAs s distinct)) ∧
    (∀ (outPageSize : Nat) (columns : List AggregateColumn) (s : Aggregate.State State),
      let aggregation := Aggregate.cursor outPageSize columns source
      Relation.ReflTransGen aggregation.FailsToOpen aggregation.start s →
        ∃ rest, IsBefore pageSize schema rows rest s.child ∧
          aggregation.AnswersAs s (Aggregate.cursor outPageSize columns (source.startingAt s.child)) ∧
          (rest = rows → aggregation.AnswersAs s aggregation)) ∧
    ∀ (outPageSize numBuffers : Nat) (keys : Join.Keys)
        (s : Join.State (MergeSort.State State) (MergeSort.State State)),
      let join := Join.cursor outPageSize numBuffers keys source other
      Relation.ReflTransGen join.FailsToOpen join.start s →
        ∃ rest otherRest, IsBefore pageSize schema rows rest s.left.source.child ∧
          IsBefore otherPageSize otherSchema otherRows otherRest s.right.source.child ∧
          join.AnswersAs s (Join.cursor outPageSize numBuffers keys
            (source.startingAt s.left.source.child) (other.startingAt s.right.source.child)) ∧
          (rest = rows → otherRest = otherRows → join.AnswersAs s join) := by
  intro source other
  have hcalm := isCalm pageSize schema rows
  have hcalm' := isCalm otherPageSize otherSchema otherRows
  have hwhole := opensAlike_bothWhole pageSize schema rows
  have hwhole' := opensAlike_bothWhole otherPageSize otherSchema otherRows
  have hstart : ∃ rest, IsBefore pageSize schema rows rest source.start := ⟨rows, .closed⟩
  have hstart' : ∃ rest, IsBefore otherPageSize otherSchema otherRows rest other.start :=
    ⟨otherRows, .closed⟩
  refine ⟨?_, ?_, ?_, ?_⟩
  · intro spec s sort hs
    obtain ⟨c, capacity, stats, ⟨rest, hc⟩, rfl⟩ :=
      MergeSort.isEmptied_of_fails spec hcalm.keeps hstart hs
    refine ⟨rest, hc, MergeSort.answersAs_of_emptied spec source.opensAlike_eq rfl _ _, ?_⟩
    rintro rfl
    exact MergeSort.answersAs_of_emptied spec hwhole (.single ⟨hc, .closed⟩) _ _
  · intro outPageSize numBuffers s distinct hs
    obtain ⟨hopen, c, capacity, stats, ⟨rest, hc⟩, hsort⟩ :=
      Distinct.isEmptied_of_fails outPageSize numBuffers hcalm.keeps hstart hs
    have hchild : s.sort.child = c := by rw [hsort]; rfl
    refine ⟨rest, hchild ▸ hc, Distinct.answersAs_of_emptied outPageSize numBuffers
      source.opensAlike_eq hopen hchild.symm hsort, ?_⟩
    rintro rfl
    exact Distinct.answersAs_of_emptied outPageSize numBuffers hwhole hopen
      (.single ⟨hc, .closed⟩) hsort
  · intro outPageSize columns s aggregation hs
    obtain ⟨c, capacity, ⟨rest, hc⟩, rfl⟩ :=
      Aggregate.isEmptied_of_fails outPageSize columns hcalm.keeps hstart hs
    refine ⟨rest, hc,
      Aggregate.answersAs_of_emptied outPageSize columns source.opensAlike_eq rfl _, ?_⟩
    rintro rfl
    exact Aggregate.answersAs_of_emptied outPageSize columns hwhole (.single ⟨hc, .closed⟩) _
  · intro outPageSize numBuffers keys s join hs
    obtain ⟨hphase, ⟨c, n, stats, ⟨rest, hc⟩, hl⟩, d, m, stats', ⟨otherRest, hd⟩, hr⟩ :=
      Join.isEmptied_of_fails outPageSize numBuffers keys hcalm hcalm'.keeps hstart hstart' hs
    have hchild : s.left.source.child = c := by rw [hl]; rfl
    have hchild' : s.right.source.child = d := by rw [hr]; rfl
    refine ⟨rest, otherRest, hchild ▸ hc, hchild' ▸ hd,
      Join.answersAs_of_emptied outPageSize numBuffers keys source.opensAlike_eq
        other.opensAlike_eq hphase hchild.symm hchild'.symm hl hr, ?_⟩
    rintro rfl rfl
    exact Join.answersAs_of_emptied outPageSize numBuffers keys hwhole hwhole' hphase
      (.single ⟨hc, .closed⟩) (.single ⟨hd, .closed⟩) hl hr

/-- A sum overflows at the second of three rows. When the aggregation is opened again, it succeeds
and gives the sum of the third row alone. -/
theorem Aggregate.sums_rest_after_overflow :
    let rows := Sample.intRows [[9223372036854775807], [1], [5]]
    let overflow : Failure := .error (.integerOverflow 9223372036854775807 1)
    let aggregation := Aggregate.cursor 4 [.aggregate .sum 0]
      (RowSource.cursor 4 (Sample.intSchema "t" 1) rows)
    aggregation.events ⟨true⟩ aggregation.start [.openUp, .openUp, .next, .next] =
      [.opened (.error overflow), .opened (.ok ()), .paged (.ok (some ⟨1, [[.int 5]]⟩)),
        .paged (.ok none)] := by
  decide +kernel

end PagedQuery
