import Mathlib.Algebra.BigOperators.Group.Finset.Basic
import Mathlib.Algebra.Order.Floor.Div
import Mathlib.Algebra.Order.Ring.Nat
import Mathlib.Data.Nat.Log
import Mathlib.GroupTheory.GroupAction.Ring
import PagedQuery.Proofs.ExternalSort

namespace PagedQuery

theorem length_chunks {α : Type} {n : Nat} (hn : 0 < n) (xs : List α) :
    (chunks n xs).length = xs.length ⌈/⌉ n :=
  eq_of_forall_ge_iff fun m => by
    rw [length_chunks_le_iff hn, ceilDiv_le_iff_le_mul hn, Nat.mul_comm]

theorem ceilDiv_lt_self {fanIn runs : Nat} (hfan : 2 ≤ fanIn) (hruns : 1 < runs) :
    runs ⌈/⌉ fanIn < runs := by
  have hmany : 2 ≤ (List.replicate runs ()).length := by
    rw [List.length_replicate]
    exact hruns
  have hlength := length_chunks_lt hfan hmany
  rwa [length_chunks (by omega), List.length_replicate] at hlength

/-- The runs that are left of so many after some passes. -/
def runsAfter (fanIn runs passes : Nat) : Nat := (· ⌈/⌉ fanIn)^[passes] runs

/-- The runs that a pass over so many runs writes: one for each full group, and one for what is left
unless that is a single run. -/
def runsWritten (fanIn runs : Nat) : Nat := runs / fanIn + if 2 ≤ runs % fanIn then 1 else 0

theorem runsAfter_eq {fanIn : Nat} (hfan : 0 < fanIn) (runs passes : Nat) :
    runsAfter fanIn runs passes = runs ⌈/⌉ fanIn ^ passes := by
  induction passes with
  | zero => exact (ceilDiv_one runs).symm
  | succ passes ih =>
    rw [runsAfter, Function.iterate_succ_apply', ← runsAfter, ih]
    refine eq_of_forall_ge_iff fun m => ?_
    rw [ceilDiv_le_iff_le_mul hfan, ceilDiv_le_iff_le_mul (Nat.pow_pos hfan),
      ceilDiv_le_iff_le_mul (Nat.pow_pos hfan), Nat.pow_succ, Nat.mul_assoc]

theorem lt_clog_iff_lt_runsAfter {fanIn runs passes : Nat} (hfan : 2 ≤ fanIn) :
    passes < Nat.clog fanIn runs ↔ 1 < runsAfter fanIn runs passes := by
  have hpos : 0 < fanIn ^ passes := Nat.pow_pos (by omega)
  rw [Nat.lt_clog_iff_pow_lt hfan, runsAfter_eq (by omega), ← Nat.not_le, ← Nat.not_le,
    ceilDiv_le_iff_le_mul hpos, Nat.mul_one]

theorem isLeast_clog {fanIn : Nat} (hfan : 2 ≤ fanIn) (runs : Nat) :
    IsLeast {passes | runs ≤ fanIn ^ passes} (Nat.clog fanIn runs) :=
  ⟨Nat.le_pow_clog hfan runs, fun _ hpasses => Nat.clog_le_of_le_pow hpasses⟩

theorem clog_max_one (fanIn runs : Nat) : Nat.clog fanIn (max runs 1) = Nat.clog fanIn runs := by
  rcases Nat.eq_zero_or_pos runs with rfl | hpos
  · rw [Nat.zero_max, Nat.clog_one_right, Nat.clog_zero_right]
  · rw [Nat.max_eq_left hpos]

section Groups

variable {fanIn runs : Nat}

theorem length_groupSizes (hfan : 0 < fanIn) (runs : Nat) :
    (groupSizes fanIn runs).length = runs ⌈/⌉ fanIn := by
  rw [groupSizes, List.length_map, length_chunks hfan, List.length_replicate]

theorem groupSizes_of_le (hpos : 0 < runs) (hle : runs ≤ fanIn) : groupSizes fanIn runs = [runs] := by
  have hne : List.replicate runs () ≠ [] := by simpa using Nat.ne_of_gt hpos
  rw [groupSizes, chunks_of_length_le (by omega) hne (by rwa [List.length_replicate]),
    List.map_singleton, List.length_replicate]

theorem groupSizes_of_lt (hfan : 0 < fanIn) (hlt : fanIn < runs) :
    groupSizes fanIn runs = fanIn :: groupSizes fanIn (runs - fanIn) := by
  have hne : List.replicate runs () ≠ [] := by
    rw [ne_eq, List.replicate_eq_nil_iff]
    omega
  rw [groupSizes, chunks_of_ne_nil hfan hne, List.map_cons, List.take_replicate,
    List.drop_replicate, List.length_replicate, Nat.min_eq_left (Nat.le_of_lt hlt), groupSizes]

theorem runsWritten_of_lt (hlt : runs < fanIn) :
    runsWritten fanIn runs = if 2 ≤ runs then 1 else 0 := by
  rw [runsWritten, Nat.div_eq_of_lt hlt, Nat.mod_eq_of_lt hlt, Nat.zero_add]

theorem runsWritten_self (hfan : 2 ≤ fanIn) : runsWritten fanIn fanIn = 1 := by
  rw [runsWritten, Nat.div_self (by omega), Nat.mod_self]
  rfl

theorem runsWritten_of_le (hfan : 2 ≤ fanIn) (hle : fanIn ≤ runs) :
    runsWritten fanIn runs = runsWritten fanIn (runs - fanIn) + 1 := by
  obtain ⟨rest, rfl⟩ := Nat.exists_eq_add_of_le' hle
  rw [Nat.add_sub_cancel, runsWritten, runsWritten, Nat.add_div_right rest (by omega),
    Nat.add_mod_right]
  omega

end Groups

namespace SortStats

/-- The most runs that a pass over so many runs merges at once. -/
def widestGroup (fanIn runs : Nat) : Nat := if 1 < runs then min runs fanIn else 0

theorem widestGroup_mono (fanIn : Nat) {runs runs' : Nat} (hle : runs ≤ runs') :
    widestGroup fanIn runs ≤ widestGroup fanIn runs' := by
  unfold widestGroup
  split <;> split <;> omega

theorem widestGroup_of_lt {fanIn runs : Nat} (hfan : 2 ≤ fanIn) (hlt : fanIn < runs) :
    widestGroup fanIn runs = fanIn := by
  rw [widestGroup, if_pos (by omega), Nat.min_eq_right (Nat.le_of_lt hlt)]

theorem widestGroup_le (fanIn runs : Nat) : widestGroup fanIn runs ≤ fanIn := by
  unfold widestGroup
  split <;> omega

theorem afterGroup_of_le {fanIn size : Nat} (hfan : 2 ≤ fanIn) (hpos : 0 < size)
    (hle : size ≤ fanIn) (t : SortStats) :
    afterGroup t size = { t with
      maxFanIn := max t.maxFanIn (widestGroup fanIn size)
      mergedRuns := t.mergedRuns + runsWritten fanIn size } := by
  rcases Nat.eq_or_lt_of_le hpos with rfl | hmany
  · rw [afterGroup, if_pos rfl, widestGroup, if_neg (by decide), runsWritten_of_lt (by omega)]
    simp
  · have hwritten : runsWritten fanIn size = 1 := by
      rcases Nat.eq_or_lt_of_le hle with rfl | hlt
      · exact runsWritten_self hfan
      · rw [runsWritten_of_lt hlt]
        exact if_pos hmany
    rw [afterGroup, if_neg (by omega), widestGroup, if_pos hmany, hwritten, Nat.min_eq_left hle]

theorem foldl_afterGroup {fanIn : Nat} (hfan : 2 ≤ fanIn) (runs : Nat) (t : SortStats) :
    (groupSizes fanIn runs).foldl afterGroup t = { t with
      maxFanIn := max t.maxFanIn (widestGroup fanIn runs)
      mergedRuns := t.mergedRuns + runsWritten fanIn runs } := by
  induction runs using Nat.strongRecOn generalizing t with
  | ind runs ih =>
    rcases Nat.eq_zero_or_pos runs with rfl | hpos
    · simp [groupSizes, widestGroup, runsWritten_of_lt (Nat.lt_of_lt_of_le Nat.two_pos hfan)]
    · rcases Nat.lt_or_ge fanIn runs with hlt | hle
      · have hfirst := afterGroup_of_le hfan (by omega) (Nat.le_refl fanIn) t
        have hwidest := widestGroup_le fanIn (runs - fanIn)
        have hwritten := runsWritten_of_le hfan (Nat.le_of_lt hlt)
        rw [groupSizes_of_lt (by omega) hlt, List.foldl_cons, hfirst, ih (runs - fanIn) (by omega),
          widestGroup_of_lt hfan hlt, hwritten, runsWritten_self hfan, widestGroup,
          if_pos (by omega), Nat.min_self]
        simp only [SortStats.mk.injEq, true_and]
        omega
      · rw [groupSizes_of_le hpos hle, List.foldl_cons, List.foldl_nil,
          afterGroup_of_le hfan hpos hle]

/-- What all passes add to the counters. -/
theorem afterPasses_eq {fanIn : Nat} (hfan : 2 ≤ fanIn) {steps runs : Nat}
    (hsteps : runs ≤ steps + 1) (t : SortStats) :
    afterPasses fanIn steps (t.mergePasses + 1) runs t = { t with
      mergePasses := t.mergePasses + Nat.clog fanIn runs
      maxFanIn := max t.maxFanIn (widestGroup fanIn runs)
      mergedRuns := t.mergedRuns + ∑ passes ∈ Finset.range (Nat.clog fanIn runs),
        runsWritten fanIn (runsAfter fanIn runs passes) } := by
  have hnone {runs : Nat} (hfew : runs ≤ 1) (t : SortStats) : t = { t with
      mergePasses := t.mergePasses + Nat.clog fanIn runs
      maxFanIn := max t.maxFanIn (widestGroup fanIn runs)
      mergedRuns := t.mergedRuns + ∑ passes ∈ Finset.range (Nat.clog fanIn runs),
        runsWritten fanIn (runsAfter fanIn runs passes) } := by
    rw [Nat.clog_of_right_le_one hfew, widestGroup, if_neg (by omega), Finset.range_zero,
      Finset.sum_empty, Nat.max_zero]
    rfl
  -- Every pass leaves fewer runs, so that the steps last until a single run is left.
  induction steps generalizing runs t with
  | zero => exact hnone hsteps t
  | succ steps ih =>
    rw [afterPasses]
    split
    · next hmany =>
      have hfewer := ceilDiv_lt_self hfan hmany
      have hclog : Nat.clog fanIn runs = Nat.clog fanIn (runs ⌈/⌉ fanIn) + 1 :=
        Nat.clog_of_two_le hfan hmany
      have hwidest := widestGroup_mono fanIn (Nat.le_of_lt hfewer)
      rw [length_groupSizes (by omega), foldl_afterGroup hfan, hclog, Finset.sum_range_succ']
      refine (ih (by omega) { t with
        mergePasses := t.mergePasses + 1
        maxFanIn := max t.maxFanIn (widestGroup fanIn runs)
        mergedRuns := t.mergedRuns + runsWritten fanIn runs }).trans ?_
      have hfirst : runsAfter fanIn runs 0 = runs := rfl
      have hlater : ∀ passes, runsAfter fanIn runs (passes + 1) =
          runsAfter fanIn (runs ⌈/⌉ fanIn) passes := fun _ => rfl
      simp only [hfirst, hlater, SortStats.mk.injEq, true_and]
      omega
    · next hfew => exact hnone (Nat.not_lt.mp hfew) t

/-- An input without rows is one run for the passes, though no run is counted for it. -/
theorem afterPasses_max_one {fanIn : Nat} (hfan : 2 ≤ fanIn) (runs : Nat) (t : SortStats) :
    afterPasses fanIn (max runs 1) (t.mergePasses + 1) (max runs 1) t = { t with
      mergePasses := t.mergePasses + Nat.clog fanIn runs
      maxFanIn := max t.maxFanIn (widestGroup fanIn runs)
      mergedRuns := t.mergedRuns + ∑ passes ∈ Finset.range (Nat.clog fanIn runs),
        runsWritten fanIn (runsAfter fanIn runs passes) } := by
  rw [afterPasses_eq hfan (Nat.le_succ _)]
  rcases Nat.eq_zero_or_pos runs with rfl | hpos
  · rw [Nat.zero_max, Nat.clog_one_right, Nat.clog_zero_right, Finset.range_zero]
    rfl
  · rw [Nat.max_eq_left hpos]

end SortStats

/-- The largest of the blocks that rows are taken in has as many pages as fit, if there are rows
enough. -/
theorem foldl_max_length_chunks {α : Type} {maxPages capacity : Nat} (hpages : 0 < maxPages)
    (hc : 0 < capacity) (xs : List α) (most : Nat) :
    ((chunks (maxPages * capacity) xs).map fun piece => (chunks capacity piece).length).foldl max most =
      max most (min maxPages (xs.length ⌈/⌉ capacity)) := by
  induction xs using chunks_induction (Nat.mul_pos hpages hc) generalizing most with
  | nil => simp
  | step xs hxs ih =>
    have hpiece : (xs.take (maxPages * capacity)).length ⌈/⌉ capacity =
        min maxPages (xs.length ⌈/⌉ capacity) := by
      refine eq_of_forall_ge_iff fun m => ?_
      rw [ceilDiv_le_iff_le_mul hc, List.length_take, min_le_iff, min_le_iff,
        ceilDiv_le_iff_le_mul hc, Nat.mul_comm maxPages, Nat.mul_le_mul_left_iff hc]
    have hrest : (xs.drop (maxPages * capacity)).length ⌈/⌉ capacity ≤ xs.length ⌈/⌉ capacity := by
      rw [ceilDiv_le_iff_le_mul hc, List.length_drop]
      exact Nat.le_trans (Nat.sub_le _ _) (le_smul_ceilDiv hc)
    rw [chunks_of_ne_nil (Nat.mul_pos hpages hc) hxs, List.map_cons, List.foldl_cons,
      length_chunks hc, hpiece, ih]
    omega

/-- The counters of a sort of so many rows, with this many buffer pages of this capacity. -/
structure SortStats.AreFor (numBuffers capacity rows : Nat) (t : SortStats) : Prop where
  initialRuns : t.initialRuns = rows ⌈/⌉ (numBuffers * capacity)
  maxBlockPages : t.maxBlockPages = min numBuffers (rows ⌈/⌉ capacity)
  mergePasses : IsLeast {passes | max t.initialRuns 1 ≤ (numBuffers - 1) ^ passes} t.mergePasses
  maxFanIn : t.maxFanIn = if 1 < t.initialRuns then min t.initialRuns (numBuffers - 1) else 0
  /-- A pass is made whenever more than one run is left. -/
  passes : ∀ pass, pass < t.mergePasses ↔ 1 < runsAfter (numBuffers - 1) t.initialRuns pass
  mergedRuns : t.mergedRuns = ∑ pass ∈ Finset.range t.mergePasses,
    runsWritten (numBuffers - 1) (runsAfter (numBuffers - 1) t.initialRuns pass)

theorem length_inputPieces {n : Nat} (hn : 0 < n) (rows : List Row) :
    (inputPieces n rows).length = max (rows.length ⌈/⌉ n) 1 := by
  unfold inputPieces
  split
  · next hempty =>
    rw [List.isEmpty_iff.mp hempty, List.length_nil, zero_ceilDiv]
    rfl
  · next hrows =>
    have hlength := length_chunks hn rows
    rw [chunks_of_ne_nil hn (by simpa using hrows)] at hlength ⊢
    rw [← hlength, List.length_cons]
    omega

namespace RunSet

variable {spec : SortSpec} {capacity : Nat} {all : List Row} {root : TempRoot} {work : RunSet}
  {reader : RunFile.Reader}

/-- What the counters say when the rows are in a single run. -/
theorem HasSorted.areFor (hbuffers : 3 ≤ spec.numBuffers) (hc : 0 < capacity)
    (h : HasSorted spec capacity all reader work) :
    work.stats.AreFor spec.numBuffers capacity all.length := by
  obtain ⟨_, rfl, hstats⟩ := h.stats
  have hblock : 0 < spec.numBuffers * capacity := Nat.mul_pos (by omega) hc
  have hfan : 2 ≤ spec.numBuffers - 1 := by omega
  have hlargest := foldl_max_length_chunks (by omega : 0 < spec.numBuffers) hc all 0
  have hcounted := SortStats.afterPasses_max_one hfan (all.length ⌈/⌉ (spec.numBuffers * capacity))
    (statsOf capacity (chunks (spec.numBuffers * capacity) all))
  rw [length_inputPieces hblock] at hstats
  have hruns : work.stats.initialRuns = all.length ⌈/⌉ (spec.numBuffers * capacity) := by
    rw [hstats.trans hcounted]
    exact length_chunks hblock all
  rw [← hruns] at hcounted hstats
  have hpasses : work.stats.mergePasses = Nat.clog (spec.numBuffers - 1) work.stats.initialRuns := by
    conv_lhs => rw [hstats.trans hcounted]
    exact Nat.zero_add _
  refine ⟨hruns, ?_, ?_, ?_, ?_, ?_⟩
  · rw [hstats.trans hcounted]
    exact hlargest.trans (Nat.zero_max _)
  · rw [hpasses]
    rw [← clog_max_one]
    exact isLeast_clog hfan _
  · conv_lhs => rw [hstats.trans hcounted]
    exact Nat.zero_max _
  · intro pass
    rw [hpasses]
    exact lt_clog_iff_lt_runsAfter hfan
  · rw [hpasses]
    conv_lhs => rw [hstats.trans hcounted]
    exact Nat.zero_add _

theorem fixes_runs_mergeGroup (spec : SortSpec) (capacity : Nat) (group : List String)
    (file : String) : (mergeGroup spec capacity group file).Fixes runs := by
  have hfolder {α : Type} (x : Act Folder α) : (onFolder x).Fixes runs := fun _ _ => rfl
  exact fixes_mergeGroup (fun _ => Act.fixes_modify fun _ => rfl) (fun _ _ => hfolder _) group

theorem length_of_gives_passGroup {file : String} {later group : List String} {t : RunSet}
    (h : (passGroup spec capacity file later group).Gives root work () t) :
    t.runs.length = work.runs.length + 1 := by
  -- Merging keeps the list of runs, so what follows a merge that answers adds one run to it.
  have hmerged {f : Except Failure Unit → Act RunSet Unit}
      (h : (Act.attempt (mergeGroup spec capacity group file) >>= f).Gives root work () t)
      (hok : ∀ u, (f (.ok ())).Gives root u () t → t.runs.length = u.runs.length + 1)
      (herror : ∀ e u, (f (.error e)).Fails root u e) : t.runs.length = work.runs.length + 1 := by
    obtain ⟨answer, u, hattempt, h⟩ := h.of_bind
    have hkept : u.runs = work.runs :=
      hattempt.ensured ((fixes_runs_mergeGroup spec capacity group file).attempt root work)
    cases answer with
    | error e => exact absurd (herror e u) h.not_fails
    | ok _ => exact hkept ▸ hok u h
  have hlisted (u : RunSet) (h : (do
      track file
      modifyStats fun t => { t with mergedRuns := t.mergedRuns + 1 }
      discard group : Act RunSet Unit).Gives root u () t) :
      t.runs.length = u.runs.length + 1 := by
    obtain ⟨_, listed, htrack, h⟩ := h.of_bind
    obtain ⟨-, rfl⟩ := htrack.unique (Act.gives_modify _)
    obtain ⟨_, counted, hstats, hdiscard⟩ := h.of_bind
    obtain ⟨-, rfl⟩ := hstats.unique (Act.gives_modify _)
    obtain ⟨-, rfl⟩ := hdiscard.unique (Act.gives_modify _)
    exact List.length_append
  rcases group with _ | ⟨run, _ | ⟨second, rest⟩⟩
  · exact hmerged h hlisted fun _ _ => rfl
  · obtain ⟨-, rfl⟩ := h.unique (Act.gives_modify _)
    exact List.length_append
  · exact hmerged h hlisted fun _ _ => rfl

theorem length_of_gives_mergeGroups {pass number : Nat} {groups : List (List String)} {t : RunSet}
    (h : (mergeGroups spec capacity pass number groups).Gives root work () t) :
    t.runs.length = work.runs.length + groups.length := by
  induction groups generalizing number work with
  | nil =>
    obtain ⟨-, rfl⟩ := h.unique Act.gives_pure
    rfl
  | cons group groups ih =>
    obtain ⟨_, u, hgroup, hgroups⟩ := h.of_bind
    rw [ih hgroups, length_of_gives_passGroup hgroup, List.length_cons]
    omega

/-- Passes end by themselves: steps beyond the number of runs change nothing. -/
theorem run_mergePasses_congr {fanIn : Nat} (hfan : 2 ≤ fanIn) {steps steps' pass : Nat}
    (hsteps : work.runs.length ≤ steps + 1) (hsteps' : work.runs.length ≤ steps' + 1) :
    (mergePasses spec capacity fanIn steps pass).run root work =
      (mergePasses spec capacity fanIn steps' pass).run root work := by
  have hend {steps pass : Nat} {work : RunSet} (hfew : work.runs.length ≤ 1) :
      (mergePasses spec capacity fanIn steps pass).run root work = ⟨.ok (), work, []⟩ := by
    cases steps with
    | zero => rfl
    | succ steps =>
      change (if 1 < work.runs.length then _ else pure () : Act RunSet Unit).run root work = _
      rw [if_neg (by omega)]
      rfl
  -- Each pass leaves fewer runs, and both numbers of steps are enough for these.
  induction steps generalizing steps' pass work with
  | zero => rw [hend hsteps, hend hsteps]
  | succ steps ih =>
    by_cases hmany : 1 < work.runs.length
    · obtain ⟨steps', rfl⟩ : ∃ n, steps' = n + 1 := ⟨steps' - 1, by omega⟩
      change (if 1 < work.runs.length then _ else pure () : Act RunSet Unit).run root work =
        (if 1 < work.runs.length then _ else pure () : Act RunSet Unit).run root work
      rw [if_pos hmany, if_pos hmany, chunks?_of_pos (by omega)]
      refine Act.run_bind_congr fun _ begun hbegun => ?_
      obtain ⟨-, rfl⟩ := hbegun.unique Act.gives_set
      refine Act.run_bind_congr fun groups grouped hgrouped => ?_
      obtain ⟨rfl, rfl⟩ := hgrouped.unique Act.gives_pure
      refine Act.run_bind_congr fun _ merged hmerged => Act.run_bind_congr fun _ passed hpassed => ?_
      obtain ⟨-, rfl⟩ := hpassed.unique (Act.gives_modify _)
      have hleft : merged.runs.length = work.runs.length ⌈/⌉ fanIn := by
        rw [length_of_gives_mergeGroups hmerged, length_chunks (by omega)]
        exact Nat.zero_add _
      have hfewer : merged.runs.length < work.runs.length := hleft ▸ ceilDiv_lt_self hfan hmany
      refine ih ?_ ?_
      · change merged.runs.length ≤ steps + 1
        omega
      · change merged.runs.length ≤ steps' + 1
        omega
    · rw [hend (by omega), hend (by omega)]

theorem run_mergePasses_eq_mergeAll (hbuffers : 3 ≤ spec.numBuffers) {steps : Nat}
    (hsteps : work.runs.length ≤ steps) :
    (mergePasses spec capacity (spec.numBuffers - 1) steps 1).run root work =
      (mergeAll spec capacity).run root work := by
  have hall : mergeAll spec capacity = (do
      mergePasses spec capacity (spec.numBuffers - 1) (← get).runs.length 1) := by
    rw [mergeAll, fanIn?_of_pos (by omega)]
    rfl
  rw [hall]
  exact run_mergePasses_congr (by omega) (Nat.le_succ_of_le hsteps) (Nat.le_succ _)

end RunSet

namespace MergeSort

variable {σ : Type}

/-- A sort that opens has used its buffers as its counters say, its merge passes have ended with a
single run, and no pass writes a run that is alone in its group. -/
theorem counts_buffer_use (spec : SortSpec) (child : Cursor σ) (root : TempRoot) (s t : State σ)
    (c d : σ) (batches : List Batch) (hclosed : s.isOpen = false) (hruns : s.work.runs = [])
    (hopen : child.openUp.Gives root s.child () c) (hdelivers : child.Delivers root c batches d)
    (hsort : (cursor spec child).openUp.Gives root s () t) :
    t.work.stats.AreFor spec.numBuffers (spec.pageSize / child.schema.rowSize)
        (batches.flatMap (·.rows)).length ∧
      t.work.runs.length = 1 ∧
      (∀ capacity work steps, work.runs.length ≤ steps →
        (RunSet.mergePasses spec capacity (spec.numBuffers - 1) steps 1).run root work =
          (RunSet.mergeAll spec capacity).run root work) ∧
      ∀ capacity work file later run,
        (RunSet.passGroup spec capacity file later [run]).Gives root work ()
          { work with runs := work.runs ++ [run] } := by
  obtain ⟨hroom, reader, hsorted, -, -⟩ :=
    exists_hasSorted_of_gives hclosed hruns hopen hdelivers hsort
  obtain ⟨run, hlists, -, -⟩ := hsorted.exists_run
  refine ⟨hsorted.areFor hroom.buffers hroom.capacity_pos, ?_, ?_, ?_⟩
  · rw [hlists.runs_eq]
    rfl
  · exact fun capacity work steps hsteps => RunSet.run_mergePasses_eq_mergeAll hroom.buffers hsteps
  · exact fun capacity work file later run => Act.gives_modify _

/-- Three runs on pages of one row: the first pass merges two of them and takes the third as it is,
the second pass merges what is left. -/
theorem counts_buffer_use_mixedPages :
    ∃ t, (cursor (byFirst 3) mixedChild).openUp.Gives ⟨true⟩ (cursor (byFirst 3) mixedChild).start
        () t ∧
      t.work.stats = ⟨3, 2, 2, 3, 2⟩ ∧ t.work.runs.length = 1 := by
  have hordered : Row.AreOrderedOn [0] (mixedPages.flatMap (·.rows)) := by decide
  obtain ⟨o⟩ := KeyOrder.nonempty_of_areOrderedOn hordered false
  have hcan : CanSort (byFirst 3) 1 (mixedPages.flatMap (·.rows)) :=
    ⟨by decide, by decide, ⟨by decide, by decide, by decide⟩, ⟨by decide, by decide⟩, by decide⟩
  obtain ⟨t, hopened, -, -⟩ := exists_gives_openUp (s := (cursor (byFirst 3) mixedChild).start)
    (by decide) hcan o (by decide) (by decide) rfl rfl (c := mixedChild.start) ⟨rfl, rfl⟩
    delivers_mixedPages rfl
  obtain ⟨hcounts, hone, -, -⟩ := counts_buffer_use (byFirst 3) mixedChild ⟨true⟩
    (cursor (byFirst 3) mixedChild).start t mixedChild.start ⟨[], [], []⟩ mixedPages rfl rfl
    ⟨rfl, rfl⟩ delivers_mixedPages hopened
  refine ⟨t, hopened, ?_, hone⟩
  obtain ⟨hruns, hblock, hpasses, hfan, -, hmerged⟩ := hcounts
  replace hruns : t.work.stats.initialRuns = 3 := hruns
  rw [hruns] at hpasses hfan hmerged
  have hclog : IsLeast {passes | 3 ≤ 2 ^ passes} (Nat.clog 2 3) := isLeast_clog (Nat.le_refl 2) 3
  replace hpasses : t.work.stats.mergePasses = 2 := hpasses.unique hclog
  rw [hpasses] at hmerged
  calc
    t.work.stats = ⟨t.work.stats.initialRuns, t.work.stats.mergePasses, t.work.stats.maxFanIn,
      t.work.stats.maxBlockPages, t.work.stats.mergedRuns⟩ := rfl
    _ = ⟨3, 2, 2, 3, 2⟩ := by
      rw [hruns, hpasses, hfan, hblock, hmerged]
      rfl

end MergeSort
end PagedQuery
