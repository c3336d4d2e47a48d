import PagedQuery.Plan
import PagedQuery.Proofs.CallHistories
import PagedQuery.Proofs.PageFilling
import PagedQuery.Proofs.SortOpening

namespace PagedQuery

/-- Whether closing leaves no folder, however it ends. -/
def Cursor.Clears {σ : Type} (c : Cursor σ) : Prop :=
  ∀ root s, c.close.Ensures root s fun _ t => c.folders t = []

theorem Cursor.Clears.after {σ : Type} {c : Cursor σ} (h : c.Clears) (root : TempRoot) (s : σ)
    (calls : List Call) : c.folders (c.after root s (calls ++ [.close])) = [] := by
  rw [Cursor.after_concat]
  exact h root _

namespace Path

/-- Text without a slash that is put behind another one goes to its last piece. -/
theorem exists_pieces_append (text : List Char) {behind : List Char} (h : '/' ∉ behind) :
    ∃ front last, pieces text = front ++ [last] ∧
      pieces (text ++ behind) = front ++ [last ++ behind] := by
  induction text with
  | nil =>
    refine ⟨[], [], rfl, ?_⟩
    induction behind with
    | nil => rfl
    | cons c behind ih =>
      have hrest : pieces behind = [behind] := ih fun hmem => h (List.mem_cons_of_mem c hmem)
      have hc : c ≠ '/' := fun heq => h (heq ▸ List.mem_cons_self)
      rw [List.nil_append, pieces, if_neg hc, hrest]
      rfl
  | cons c text ih =>
    obtain ⟨front, last, hpieces, hall⟩ := ih
    rw [List.cons_append, pieces, pieces, hpieces, hall]
    split
    · exact ⟨[] :: front, last, rfl, rfl⟩
    · cases front with
      | nil => exact ⟨[], c :: last, rfl, rfl⟩
      | cons piece front => exact ⟨(c :: piece) :: front, last, rfl, rfl⟩

/-- Where a path leads does not depend on what is put behind the name at its end. -/
theorem staysInside_append (text : String) {behind : String} (h : '/' ∉ behind.toList) :
    staysInside (text ++ behind) = staysInside text := by
  obtain ⟨front, last, hpieces, hall⟩ := exists_pieces_append text.toList h
  have habsolute : isAbsolute (text ++ behind) = isAbsolute text := by
    rw [isAbsolute, isAbsolute, String.toList_append]
    cases text.toList with
    | cons c text => rfl
    | nil =>
      refine Bool.eq_false_iff.mpr fun hhead => h ?_
      exact List.mem_of_mem_head? (beq_iff_eq.mp hhead)
  have hway : (ofString (text ++ behind)).dropLast = (ofString text).dropLast := by
    rw [ofString, ofString, String.toList_append, hpieces, hall]
    simp only [List.map_append, List.map_singleton, List.dropLast_concat]
  rw [staysInside, staysInside, habsolute, hway]

end Path

namespace RunSet

/-! The runs of a sort are written, merged and discarded in its folder, which stays where it is. -/

variable {spec : SortSpec} {capacity : Nat}

def isInside (s : RunSet) : Option Bool := s.folder.map (·.isInside)

theorem fixes_onFolder {α : Type} {x : Act Folder α} (hx : x.Fixes Folder.isInside) :
    (onFolder x).Fixes isInside := by
  intro root s
  cases hfolder : s.folder with
  | none =>
    refine Act.ensures_within.mpr ?_
    rw [hfolder, isInside, hfolder]
    exact rfl
  | some folder =>
    refine ensures_onFolder hfolder ((hx root folder).mono fun _ t ht => ?_)
    rw [isInside, isInside, hfolder]
    exact congrArg some ht

theorem fixes_modifyStats (f : SortStats → SortStats) : (modifyStats f).Fixes isInside :=
  Act.fixes_modify fun _ => rfl

theorem fixes_track (file : String) : (track file).Fixes isInside := Act.fixes_modify fun _ => rfl

theorem fixes_write (file : String) (batches : List Batch) : (write file batches).Fixes isInside :=
  fixes_onFolder (RunFile.fixes_write (Folder.overlooks_isInside file) batches)

theorem fixes_discard (files : List String) : (discard files).Fixes isInside := by
  refine Act.fixes_modify fun s => ?_
  have hsame (folder : Folder) : (files.foldl Folder.remove folder).isInside = folder.isInside := by
    induction files generalizing folder with
    | nil => rfl
    | cons file files ih => exact ih (folder.remove file)
  cases hfolder : s.folder with
  | none => simp only [isInside, hfolder, Option.map_none]
  | some folder => simp only [isInside, hfolder, Option.map_some, hsame]

theorem fixes_writeSorted (block : Block) : (writeSorted spec capacity block).Fixes isInside :=
  (fixes_modifyStats _).bind fun _ => (Act.fixes_require _).bind fun _ =>
    (Act.fixes_ofAnswer _).bind fun _ => Act.fixes_get_bind fun _ =>
      (fixes_write _ _).bind fun _ => (fixes_track _).bind fun _ => fixes_modifyStats _

theorem fixes_takeRow (blockAndPage : Block × Draft) (row : Row) :
    (takeRow spec capacity blockAndPage row).Fixes isInside := by
  refine (Act.fixes_ofExcept _).bind ?_
  rintro ⟨_ | closed, page⟩
  · exact Act.fixes_pure _
  · dsimp only
    split
    · exact Act.fixes_abandon _
    · split
      · exact (fixes_writeSorted _).bind fun _ => Act.fixes_pure _
      · exact Act.fixes_pure _

theorem fixes_closePage (block : Block) (page : Draft) : (closePage block page).Fixes isInside := by
  rw [closePage]
  split
  · exact Act.fixes_pure _
  · split
    · exact Act.fixes_pure _
    · exact Act.fixes_abandon _

theorem fixes_takeEnd (blockAndPage : Block × Draft) :
    (takeEnd spec capacity blockAndPage).Fixes isInside := by
  refine (fixes_closePage _ _).bind fun block => Act.Fixes.bind ?_ fun _ => ?_
  · rw [writeLeft]
    split
    · exact Act.fixes_pure _
    · exact fixes_writeSorted block
  · refine Act.fixes_get_bind fun s => ?_
    split
    · exact (fixes_write _ _).bind fun _ => fixes_track _
    · exact Act.fixes_pure _

theorem fixes_passGroup (file : String) (later group : List String) :
    (passGroup spec capacity file later group).Fixes isInside := by
  rw [passGroup.eq_def]
  split
  · exact fixes_track _
  · have hmerge : (mergeGroup spec capacity group file).Fixes isInside :=
      fixes_mergeGroup fixes_modifyStats (fun rows lanes => fixes_onFolder
        (fixes_writeMerged (Folder.overlooks_isInside file) spec capacity rows lanes)) group
    refine hmerge.attempt.bind ?_
    rintro (e | _)
    · refine Act.Fixes.bind ?_ fun _ => Act.fixes_abandon e
      exact Act.fixes_modify fun _ => rfl
    · exact (fixes_track _).bind fun _ => (fixes_modifyStats _).bind fun _ => fixes_discard _

theorem fixes_mergeGroups (pass number : Nat) (groups : List (List String)) :
    (mergeGroups spec capacity pass number groups).Fixes isInside := by
  induction groups generalizing number with
  | nil => exact Act.fixes_pure ()
  | cons group groups ih => exact (fixes_passGroup _ _ _).bind fun _ => ih (number + 1)

theorem fixes_mergePasses (fanIn passes pass : Nat) :
    (mergePasses spec capacity fanIn passes pass).Fixes isInside := by
  induction passes generalizing pass with
  | zero => exact Act.fixes_pure ()
  | succ passes ih =>
    intro root s
    apply Act.ensures_get_bind.mpr
    split
    · have hpass : (do
          let groups ← Act.require (chunks? fanIn s.runs)
          mergeGroups spec capacity pass 0 groups
          modifyStats fun t => { t with mergePasses := pass }
          mergePasses spec capacity fanIn passes (pass + 1)).Fixes isInside :=
        (Act.fixes_require _).bind fun groups => (fixes_mergeGroups pass 0 groups).bind fun _ =>
          (fixes_modifyStats _).bind fun _ => ih (pass + 1)
      exact Act.ensures_set_bind.mpr (hpass root { s with runs := [] })
    · exact Act.ensures_pure.mpr rfl

theorem fixes_openSingle : (openSingle capacity).Fixes isInside := by
  refine Act.fixes_get_bind fun s => ?_
  split
  · exact fixes_workingFolder.bind fun _ => Act.fixes_ofExcept _
  · exact Act.fixes_abandon _

theorem fixes_sortRows (rows : List Row) : (sortRows spec capacity rows).Fixes isInside := by
  have htake : (takeAll spec capacity rows).Fixes isInside :=
    (Act.fixes_ofAnswer _).bind fun block => (Act.fixes_ofAnswer _).bind fun page =>
      (Act.fixes_foldlM fixes_takeRow rows (block, page)).bind fixes_takeEnd
  have hmerge : (mergeAll spec capacity).Fixes isInside :=
    (Act.fixes_require _).bind fun fanIn => Act.fixes_get_bind fun s => fixes_mergePasses fanIn _ 1
  exact htake.bind fun _ => hmerge.bind fun _ => fixes_openSingle

end RunSet

namespace Project

variable {σ : Type} {child : Cursor σ}

theorem clears (pageSize : Nat) (fields : List Nat) (h : child.Clears) :
    (cursor pageSize fields child).Clears := by
  intro root s
  apply Act.ensures_modify_bind.mpr
  exact h root s.child

end Project

namespace MergeSort

variable {σ : Type} {spec : SortSpec} {child : Cursor σ} {root : TempRoot} {s : State σ}

theorem ensures_close {post : Except Failure Unit → σ → Prop}
    (h : child.close.Ensures root s.child post) :
    (close child).Ensures root s fun answer t => post answer t.child ∧
      t.work.folder = none ∧ t.work.runs = [] := by
  refine gives_release.bind_ensures (Act.Ensures.within_bind h ?_ ?_)
  · intro e c hc
    exact ⟨hc, rfl, rfl⟩
  · intro _ c hc
    exact ⟨hc, rfl, rfl⟩

theorem clears (spec : SortSpec) (h : child.Clears) : (cursor spec child).Clears := by
  intro root s
  refine (ensures_close (h root s.child)).mono ?_
  rintro _ t ⟨hchild, hfolder, -⟩
  simp only [cursor, hfolder, hchild, Option.toList_none, List.append_nil]

def IsTidy (s : State σ) : Prop := s.isOpen = false → s.work.folder = none ∧ s.work.runs = []

/-- Whether a sort has made one file for good, the run that it reads. The file lies in the folder of
the sort, unless its label leads out of there. -/
def HoldsFinalRun (spec : SortSpec) (s : State σ) : Prop :=
  ∃ folder name content batches reader capacity, s.work.folder = some folder ∧
    folder.files = [(name, content)] ∧
    (Path.staysInside spec.label = true → folder.contents = [(name, content)]) ∧
    s.work.runs = [name] ∧ RunFile.IsRun capacity batches content ∧
    s.reader = some reader ∧ reader.HandsOut batches

theorem holdsFinalRun_of_lists {capacity : Nat} {run : StoredRun capacity} {reader : RunFile.Reader}
    (hlists : s.work.Lists [run]) (hinside : s.work.isInside = some (Path.staysInside spec.label))
    (hreader : s.reader = some reader) (hreads : reader.HandsOut run.batches) :
    HoldsFinalRun spec s := by
  obtain ⟨⟨folder, hfolder, hholds⟩, hruns⟩ := hlists
  have hfiles := List.perm_singleton.mp hholds.files
  refine ⟨folder, run.name, run.content, run.batches, reader, capacity, hfolder, hfiles,
    fun hlabel => ?_, hruns, run.isRun, hreader, hreads⟩
  rw [RunSet.isInside, hfolder, hlabel] at hinside
  rw [Folder.contents, if_pos (Option.some.inj hinside), hfiles]
  rfl

def EndsOpening (spec : SortSpec) (answer : Except Failure Unit) (t : State σ) : Prop :=
  match answer with
  | .ok () => t.isOpen = true ∧ HoldsFinalRun spec t
  | .error _ => t.work.folder = none ∧ t.work.runs = []

theorem ensures_sortOrRelease {capacity : Nat} (hbuffers : 3 ≤ spec.numBuffers) (hc : 0 < capacity)
    (hruns : s.work.runs = []) :
    (sortOrRelease spec child capacity).Ensures root s (EndsOpening spec) := by
  rcases Act.gives_or_fails (sortInput spec child capacity) root s with
    ⟨_, t, hsort⟩ | ⟨f, hsort⟩
  · obtain ⟨folder, batches, reader, hfolder, -, hrows, hreader⟩ :=
      exists_delivers_of_sortInput hruns hsort
    have hempty := TempRoot.files_of_makeFolder? hfolder
    obtain ⟨run, hlists, -, hreads⟩ := (RunSet.HasSorted.of_gives hbuffers hc hempty hrows).exists_run
    have hlabel : folder.isInside = Path.staysInside spec.label := by
      rw [TempRoot.eq_of_makeFolder? hfolder]
      exact Path.staysInside_append spec.label (by decide)
    have hinside : t.work.isInside = some (Path.staysInside spec.label) :=
      (hrows.ensured (RunSet.fixes_sortRows _ root _)).trans (congrArg some hlabel)
    refine hsort.attempt.bind_ensures (Act.ensures_modify.mpr ⟨rfl, ?_⟩)
    exact holdsFinalRun_of_lists (s := { t with isOpen := true }) hlists hinside hreader hreads
  · refine Act.Ensures.mono (failsIn_sortOrRelease hsort.failsIn) ?_
    rintro answer t ⟨rfl, u, -, rfl⟩
    exact ⟨rfl, rfl⟩

/-- Opening a closed sort ends with its final run alone in its folder, or without a folder. -/
theorem ensures_openUp_of_closed (hclosed : s.isOpen = false) (hs : IsTidy s) :
    (openUp spec child).Ensures root s (EndsOpening spec) := by
  obtain ⟨hfolder, hruns⟩ := hs hclosed
  apply Act.ensures_get_bind.mpr
  rw [if_neg (by simp [hclosed])]
  refine Act.ensures_ofExcept_bind (fun _ hvalid => ?_) fun _ _ => ⟨hfolder, hruns⟩
  refine Act.ensures_ofAnswer_bind (fun capacity hcapacity => ?_) fun _ _ => ⟨hfolder, hruns⟩
  apply Act.ensures_modify_bind.mpr
  refine Act.ensures_ofExcept_bind (fun _ _ => ?_) fun _ _ => ⟨hfolder, hruns⟩
  have hopen : child.openUp.Ensures root s.child fun _ _ => True := trivial
  refine Act.Ensures.within_bind hopen (fun _ _ _ => ⟨hfolder, hruns⟩) fun _ c _ => ?_
  exact ensures_sortOrRelease (le_of_validateBuffers hvalid) (Schema.of_pageCapacity hcapacity).2 hruns

theorem isTidy_start (spec : SortSpec) (child : Cursor σ) : IsTidy (cursor spec child).start :=
  fun _ => ⟨rfl, rfl⟩

theorem ensures_openUp_of_isTidy (hs : IsTidy s) :
    (openUp spec child).Ensures root s fun answer t => IsTidy t ∧
      (∀ f, answer = .error f → t.work.folder = none) ∧
      (answer = .ok () → s.isOpen = false → HoldsFinalRun spec t) := by
  by_cases hopen : s.isOpen = true
  · apply Act.ensures_get_bind.mpr
    rw [if_pos hopen]
    exact Act.ensures_pure.mpr ⟨hs, fun f h => (by cases h), fun _ h => by simp [hopen] at h⟩
  · have hclosed : s.isOpen = false := by simpa using hopen
    refine (ensures_openUp_of_closed hclosed hs).mono ?_
    rintro (f | _) t ht
    · exact ⟨fun _ => ht, fun _ _ => ht.1, fun h => by cases h⟩
    · exact ⟨fun h => (by cases ht.1.symm.trans h), fun f h => (by cases h), fun _ _ => ht.2⟩

theorem keeps_isTidy (spec : SortSpec) (child : Cursor σ) (root : TempRoot) :
    (cursor spec child).Keeps root IsTidy where
  openUp s hs := (ensures_openUp_of_isTidy hs).mono fun _ _ ht => ht.1
  next s hs := by
    rcases s with ⟨c, _ | _, capacity, work, _ | reader⟩
    · exact hs
    · exact hs
    · exact hs
    · apply Act.ensures_get_bind.mpr
      simp only [if_true, Act.ensures_set_bind, Act.ensures_ofExcept]
      exact hs
  close s _ := by
    have hclose : child.close.Ensures root s.child fun _ _ => True := trivial
    exact (ensures_close hclose).mono fun _ _ ht _ => ht.2

end MergeSort

namespace Distinct

theorem clears {σ : Type} {child : Cursor σ} (pageSize numBuffers : Nat) (h : child.Clears) :
    (cursor pageSize numBuffers child).Clears := by
  intro root s
  apply Act.ensures_modify_bind.mpr
  exact MergeSort.clears (sortSpec pageSize numBuffers child.schema) h root s.sort

end Distinct

namespace Aggregate

variable {σ : Type} {child : Cursor σ} {root : TempRoot} {s : State σ}

theorem clears (pageSize : Nat) (columns : List AggregateColumn) (h : child.Clears) :
    (cursor pageSize columns child).Clears := by
  intro root s
  refine Act.ensures_modify_bind.mpr (Act.ensures_modify_bind.mpr ?_)
  exact h root s.child

def IsTidy (s : State σ) : Prop := s.isOpen = false → s.folder = none

theorem ensures_openUp_of_closed (pageSize : Nat) (columns : List AggregateColumn)
    (hclosed : s.isOpen = false) (hs : IsTidy s) :
    (openUp pageSize columns child).Ensures root s fun answer t => match answer with
      | .ok () => t.isOpen = true
      | .error _ => t.folder = none := by
  have hfolder := hs hclosed
  apply Act.ensures_get_bind.mpr
  rw [if_neg (by simp [hclosed])]
  refine Act.ensures_ofExcept_bind (fun _ _ => ?_) fun _ _ => hfolder
  refine Act.ensures_ofAnswer_bind (fun capacity _ => ?_) fun _ _ => hfolder
  refine Act.ensures_ofAnswer_bind (fun spoolCapacity _ => ?_) fun _ _ => hfolder
  apply Act.ensures_modify_bind.mpr
  have hopen : child.openUp.Ensures root s.child fun _ _ => True := trivial
  refine Act.Ensures.within_bind hopen (fun _ _ _ => hfolder) fun _ c _ => ?_
  have hconsume : (consume columns child spoolCapacity).Ensures root
      { s with capacity, child := c } fun _ _ => True := trivial
  refine hconsume.attempt_bind ?_
  rintro (f | _) t -
  · exact Act.ensures_modify_bind.mpr rfl
  · exact Act.ensures_modify.mpr rfl

theorem isTidy_start (pageSize : Nat) (columns : List AggregateColumn) (child : Cursor σ) :
    IsTidy (cursor pageSize columns child).start :=
  fun _ => rfl

theorem fixes_step (columns : List AggregateColumn) :
    (step columns : Act (State σ) Step).Fixes State.isOpen := by
  intro root s
  unfold step
  split
  · apply Act.ensures_get_bind.mpr
    split
    · exact Act.ensures_pure.mpr rfl
    · apply Act.ensures_set_bind.mpr
      exact ((Act.fixes_ofExcept _).bind fun _ => Act.fixes_pure _) root _
  · apply Act.ensures_get_bind.mpr
    split
    · apply Act.ensures_set_bind.mpr
      exact ((Act.fixes_ofExcept _).bind fun _ => Act.fixes_pure _) root _
    · have hspooled : (nextSpooled : Act (State σ) (Option Batch)).Fixes State.isOpen := by
        intro root s
        apply Act.ensures_get_bind.mpr
        split
        · exact Act.ensures_pure.mpr rfl
        · exact Act.ensures_set_bind.mpr (Act.ensures_ofExcept.mpr rfl)
      refine (hspooled.bind ?_) root s
      rintro (_ | batch)
      · exact Act.fixes_pure _
      · exact Act.Fixes.bind (Act.fixes_modify fun _ => rfl) fun _ => Act.fixes_pure _

theorem ensures_openUp_of_isTidy (pageSize : Nat) (columns : List AggregateColumn) (hs : IsTidy s) :
    (openUp pageSize columns child).Ensures root s fun answer t => IsTidy t ∧
      ∀ f, answer = .error f → t.folder = none := by
  by_cases hopen : s.isOpen = true
  · apply Act.ensures_get_bind.mpr
    rw [if_pos hopen]
    exact Act.ensures_pure.mpr ⟨hs, fun f h => by cases h⟩
  · have hclosed : s.isOpen = false := by simpa using hopen
    refine (ensures_openUp_of_closed pageSize columns hclosed hs).mono ?_
    rintro (f | _) t ht
    · exact ⟨fun _ => ht, fun _ _ => ht⟩
    · exact ⟨fun h => (by cases Eq.trans (Eq.symm ht) h), fun f h => by cases h⟩

theorem keeps_isTidy (pageSize : Nat) (columns : List AggregateColumn) (child : Cursor σ)
    (root : TempRoot) : (cursor pageSize columns child).Keeps root IsTidy where
  openUp s hs := (ensures_openUp_of_isTidy pageSize columns hs).mono fun _ _ ht => ht.1
  next s hs := by
    apply Act.ensures_get_bind.mpr
    by_cases hopen : s.isOpen = true
    · rw [if_neg (by simp [hopen])]
      split
      · exact Act.ensures_pure.mpr hs
      · cases hreserve : Draft.reserve s.capacity with
        | error e => exact hs
        | ok page =>
          refine (gather_keeps (fun _ ht => (fixes_step columns).keeps ht) .aggregateOutput
            (spooledVolume s + 2) page hopen).bind ?_ ?_
          · rintro e t ⟨ht, -⟩ hclosed
            cases ht.symm.trans hclosed
          · rintro batch t ⟨ht, -⟩ hclosed
            cases Eq.trans (Eq.symm ht) hclosed
    · rw [if_pos (by simp [hopen])]
      exact hs
  close s _ := by
    refine Act.ensures_modify_bind.mpr (Act.ensures_modify_bind.mpr ?_)
    exact Act.ensures_within.mpr fun _ => rfl

end Aggregate

namespace Join

variable {σ τ : Type} {left : Cursor σ} {right : Cursor τ} {root : TempRoot} {s : State σ τ}

/-- Both inputs are closed, also if one of them cannot be. Closing a join succeeds only if both are. -/
theorem ensures_close_both {P : Except Failure Unit → σ → Prop} {Q : Except Failure Unit → τ → Prop}
    (hleft : left.close.Ensures root s.left.source P)
    (hright : right.close.Ensures root s.right.source Q) :
    (close left right).Ensures root s fun answer t => ∃ leftEnd rightEnd,
      P leftEnd t.left.source ∧ Q rightEnd t.right.source ∧ t.isOpen = false ∧ t.isAtEnd = false ∧
        (answer = .ok () → leftEnd = .ok () ∧ rightEnd = .ok ()) := by
  have hends : ∀ (a b : Except Failure Unit) (t : State σ τ),
      (do
        Act.ofAnswer a
        Act.ofAnswer b : Act (State σ τ) Unit).Ensures root t fun answer u =>
          u = t ∧ (answer = .ok () → a = .ok () ∧ b = .ok ()) := by
    rintro (e | _) (e' | _) t
    · exact ⟨rfl, fun h => by cases h⟩
    · exact ⟨rfl, fun h => by cases h⟩
    · exact ⟨rfl, fun h => by cases h⟩
    · exact ⟨rfl, fun _ => ⟨rfl, rfl⟩⟩
  apply Act.ensures_modify_bind.mpr
  have hfirst : (onLeft (Side.onSource left.close)).Ensures root (reset s) fun answer t =>
      P answer t.left.source ∧ t.right.source = s.right.source := ⟨hleft, rfl⟩
  refine hfirst.attempt_bind fun leftEnd t ⟨ht, hsource⟩ => ?_
  have hsecond : (onRight (Side.onSource right.close)).Ensures root t fun answer u =>
      Q answer u.right.source ∧ P leftEnd u.left.source := by
    refine ⟨?_, ht⟩
    rw [← hsource] at hright
    exact hright
  refine hsecond.attempt_bind fun rightEnd u ⟨hQ, hP⟩ => ?_
  apply Act.ensures_modify_bind.mpr
  refine (hends leftEnd rightEnd _).mono ?_
  rintro answer _ ⟨rfl, hok⟩
  exact ⟨leftEnd, rightEnd, hP, hQ, rfl, rfl, hok⟩

theorem ensures_close {P : σ → Prop} {Q : τ → Prop}
    (hleft : left.close.Ensures root s.left.source fun _ t => P t)
    (hright : right.close.Ensures root s.right.source fun _ t => Q t) :
    (close left right).Ensures root s fun _ t => P t.left.source ∧ Q t.right.source ∧
      t.isOpen = false ∧ t.isAtEnd = false := by
  refine (ensures_close_both hleft hright).mono ?_
  rintro _ t ⟨-, -, hP, hQ, hopen, hend, -⟩
  exact ⟨hP, hQ, hopen, hend⟩

theorem clears (pageSize numBuffers : Nat) (keys : Keys) (hleft : left.Clears)
    (hright : right.Clears) : (cursor pageSize numBuffers keys left right).Clears := by
  intro root s
  refine (ensures_close
    (MergeSort.clears (sortSpec pageSize numBuffers "left" keys.left) hleft root s.left.source)
    (MergeSort.clears (sortSpec pageSize numBuffers "right" keys.right) hright root
      s.right.source)).mono ?_
  rintro _ t ⟨hleft, hright, -⟩
  simp only [cursor, overSorted, hleft, hright, List.append_nil]

end Join

/-- Closing a plan deletes the folders of all its nodes. -/
theorem Plan.clears (plan : Plan) : plan.cursor.Clears := by
  induction plan with
  | rows pageSize schema table => exact fun _ _ => rfl
  | script name schema answers => exact fun _ _ => rfl
  | project pageSize fields child ih => exact Project.clears pageSize fields ih
  | sort spec child ih => exact MergeSort.clears spec ih
  | distinct pageSize numBuffers child ih => exact Distinct.clears pageSize numBuffers ih
  | aggregate pageSize columns child ih => exact Aggregate.clears pageSize columns ih
  | join pageSize numBuffers conditions left right ihl ihr =>
    exact Join.clears pageSize numBuffers _ ihl ihr

end PagedQuery
