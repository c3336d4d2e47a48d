import PagedQuery.Proofs.MergedFiles

/-!
# Runs are never lost

Merging begins each pass with an empty list of runs and can fail at any group of it. At every moment
the listed runs and those that still wait in the pass are files of the folder, no two of them are the
same, and together they hold the rows that could be read at first; no other run is left. So it is
when merging has failed, and nothing waits any more then. The names that merges will write to are not
taken by any of these runs.
-/

namespace PagedQuery

/-- Whether the listed files of a folder are what merges have made of the initial ones. -/
structure Folder.KeepsTrack (spec : SortSpec) (capacity : Nat) (before after : Folder)
    (initial listed : List String) : Prop where
  name_eq : after.name = before.name
  nodup : listed.Nodup
  present : ∀ file ∈ listed, (after.read? file).isSome
  /-- A file that is not listed is no run, neither an initial nor a merged one. -/
  unlisted : ∀ file, file ∉ listed → after.read? file ≠ none →
    file ∉ initial ∧ after.read? file = before.read? file
  kept : ∀ file ∈ listed, file ∈ initial → after.read? file = before.read? file
  merged : ∀ file ∈ listed, file ∉ initial →
    (∃ pass number, file = spec.mergeName pass number) ∧ ∃ rows, after.ReadsAs capacity file rows
  rows : (listed.flatMap (after.readableRows capacity)).Perm
    (initial.flatMap (before.readableRows capacity))

namespace Folder

variable {spec : SortSpec} {capacity : Nat} {before mid after : Folder} {file : String}
  {initial listed front group back : List String}

theorem readsAs_congr (hname : after.name = before.name)
    (hread : after.read? file = before.read? file) {rows : List Row} :
    after.ReadsAs capacity file rows ↔ before.ReadsAs capacity file rows := by
  rw [ReadsAs, ReadsAs, ofFile_congr hname hread]

theorem flatMap_readableRows_congr (hname : after.name = before.name)
    (hread : ∀ file ∈ listed, after.read? file = before.read? file) :
    listed.flatMap (after.readableRows capacity) = listed.flatMap (before.readableRows capacity) :=
  List.flatMap_congr fun file hfile => readableRows_congr hname (hread file hfile) capacity

theorem keepsTrack_refl (hnodup : initial.Nodup)
    (hpresent : ∀ file ∈ initial, (before.read? file).isSome) :
    before.KeepsTrack spec capacity before initial initial where
  name_eq := rfl
  nodup := hnodup
  present := hpresent
  unlisted _ hfile _ := ⟨hfile, rfl⟩
  kept _ _ _ := rfl
  merged _ hfile hinitial := absurd hfile hinitial
  rows := .refl _

namespace KeepsTrack

theorem of_gone (h : before.KeepsTrack spec capacity mid initial listed)
    (hchange : mid.ChangesOnly after file) (hfile : file ∉ listed)
    (hgone : after.read? file = none ∨ after.read? file = mid.read? file) :
    before.KeepsTrack spec capacity after initial listed := by
  have hread : ∀ other ∈ listed, after.read? other = mid.read? other := fun other hother =>
    hchange.others other (ne_of_mem_of_not_mem hother hfile)
  constructor
  · exact hchange.name_eq.trans h.name_eq
  · exact h.nodup
  · intro other hother
    rw [hread other hother]
    exact h.present other hother
  · intro other hother hsome
    have hsame : after.read? other = mid.read? other := by
      by_cases heq : other = file
      · subst heq
        exact hgone.resolve_left hsome
      · exact hchange.others other heq
    rw [hsame] at hsome ⊢
    exact h.unlisted other hother hsome
  · exact fun other hother hinitial => (hread other hother).trans (h.kept other hother hinitial)
  · intro other hother hinitial
    obtain ⟨hname, rows, hreads⟩ := h.merged other hother hinitial
    exact ⟨hname, rows, (readsAs_congr hchange.name_eq (hread other hother)).mpr hreads⟩
  · rw [flatMap_readableRows_congr hchange.name_eq hread]
    exact h.rows

/-- A merged file stands for the runs that it was made of, which are deleted. -/
theorem replace (h : before.KeepsTrack spec capacity mid initial (front ++ (group ++ back)))
    (hchange : mid.ChangesOnly after file) (hfile : file ∉ front ++ (group ++ back))
    (hinitial : file ∉ initial) (hname : ∃ pass number, file = spec.mergeName pass number)
    {rows : List Row} (hreads : after.ReadsAs capacity file rows)
    (hrows : rows.Perm (group.flatMap (mid.readableRows capacity))) :
    before.KeepsTrack spec capacity (group.foldl remove after) initial (front ++ file :: back) := by
  let cleared := group.foldl remove after
  have hold : (front ++ (group ++ back)).Perm (group ++ (front ++ back)) :=
    List.perm_append_comm_assoc front group back
  have hnew : (front ++ file :: back).Perm (file :: (front ++ back)) := List.perm_middle
  obtain ⟨-, hnodup, hapart⟩ := List.nodup_append'.mp (hold.nodup_iff.mp h.nodup)
  rw [hold.mem_iff, List.mem_append, not_or] at hfile
  have hmem (other : String) : other ∈ front ++ file :: back ↔ other = file ∨ other ∈ front ++ back := by
    rw [hnew.mem_iff, List.mem_cons]
  have hclearedName : cleared.name = after.name := after.name_removeAll group
  have hclearedFile : cleared.read? file = after.read? file := by
    rw [read?_removeAll, if_neg hfile.1]
  have hothers : ∀ other ∈ front ++ back, cleared.read? other = mid.read? other := by
    intro other hother
    rw [read?_removeAll, if_neg fun hgroup => hapart hgroup hother]
    exact hchange.others other (ne_of_mem_of_not_mem hother hfile.2)
  have hkept : ∀ other ∈ front ++ back, other ∈ front ++ (group ++ back) := fun other hother =>
    hold.mem_iff.mpr (List.mem_append_right group hother)
  have hmerged : cleared.ReadsAs capacity file rows :=
    (readsAs_congr hclearedName hclearedFile).mpr hreads
  constructor
  · exact hclearedName.trans (hchange.name_eq.trans h.name_eq)
  · rw [hnew.nodup_iff, List.nodup_cons]
    exact ⟨hfile.2, hnodup⟩
  · intro other hother
    rcases (hmem other).mp hother with rfl | hother
    · exact hmerged.isSome
    · rw [hothers other hother]
      exact h.present other (hkept other hother)
  · intro other hother hsome
    rw [hmem, not_or] at hother
    -- What was deleted is gone, so the file was not in the group.
    have hgroup : other ∉ group := by
      intro hgroup
      rw [read?_removeAll, if_pos hgroup] at hsome
      exact hsome rfl
    rw [read?_removeAll, if_neg hgroup, hchange.others other hother.1] at hsome ⊢
    refine h.unlisted other ?_ hsome
    rw [hold.mem_iff, List.mem_append, not_or]
    exact ⟨hgroup, hother.2⟩
  · intro other hother hother'
    rcases (hmem other).mp hother with rfl | hother
    · exact absurd hother' hinitial
    · exact (hothers other hother).trans (h.kept other (hkept other hother) hother')
  · intro other hother hother'
    rcases (hmem other).mp hother with rfl | hother
    · exact ⟨hname, rows, hmerged⟩
    · obtain ⟨hname, rows, hreads⟩ := h.merged other (hkept other hother) hother'
      have hname' := hclearedName.trans hchange.name_eq
      exact ⟨hname, rows, (readsAs_congr hname' (hothers other hother)).mpr hreads⟩
  · have hfirst := hnew.flatMap_right (cleared.readableRows capacity)
    have hlast := hold.symm.flatMap_right (mid.readableRows capacity)
    rw [List.flatMap_cons, hmerged.readableRows_eq,
      flatMap_readableRows_congr (hclearedName.trans hchange.name_eq) hothers] at hfirst
    rw [List.flatMap_append] at hlast
    exact hfirst.trans ((hrows.append_right _).trans (hlast.trans h.rows))

end KeepsTrack

end Folder

/-- Where merging stands: before a pass, or in a pass before the group with this number, with the
groups that still wait. -/
inductive MergeStage where
  | between (pass : Nat)
  | within (pass number : Nat) (groups : List (List String))

namespace MergeStage

def waiting : MergeStage → List String
  | between _ => []
  | within _ _ groups => groups.flatten

/-- Whether the merge with this number in this pass is still to come. -/
def IsAhead : MergeStage → Nat → Nat → Prop
  | between pass, p, _ => pass ≤ p
  | within pass number _, p, g => pass < p ∨ pass = p ∧ number ≤ g

end MergeStage

namespace RunSet

/-- What merging reaches from some runs, group by group and pass by pass. -/
inductive Reaches (spec : SortSpec) (capacity : Nat) (root : TempRoot) (s : RunSet) :
    MergeStage → RunSet → Prop
  | start : Reaches spec capacity root s (.between 1) s
  | begin {pass : Nat} {t : RunSet} (h : Reaches spec capacity root s (.between pass) t)
      (hmany : 1 < t.runs.length) :
      Reaches spec capacity root s (.within pass 0 (chunks (spec.numBuffers - 1) t.runs))
        { t with runs := [] }
  | group {pass number : Nat} {group : List String} {later : List (List String)} {t u : RunSet}
      (h : Reaches spec capacity root s (.within pass number (group :: later)) t)
      (hgroup : (passGroup spec capacity (spec.mergeName pass number) later.flatten group).Gives
        root t () u) :
      Reaches spec capacity root s (.within pass (number + 1) later) u
  | finish {pass number : Nat} {t : RunSet}
      (h : Reaches spec capacity root s (.within pass number []) t) :
      Reaches spec capacity root s (.between (pass + 1))
        { t with stats := { t.stats with mergePasses := pass } }

/-- Whether the listed files are what merges have made of the initial runs of a folder. -/
def Tracks (spec : SortSpec) (capacity : Nat) (before : Folder) (initial : List String) (s : RunSet)
    (listed : List String) : Prop :=
  ∃ after, s.folder = some after ∧ before.KeepsTrack spec capacity after initial listed

/-- Whether no run is lost at a stage of merging, and none has the name of a merge to come. -/
structure IsTracked (spec : SortSpec) (capacity : Nat) (before : Folder) (initial : List String)
    (stage : MergeStage) (s : RunSet) : Prop where
  tracks : s.Tracks spec capacity before initial (s.runs ++ stage.waiting)
  free : ∀ file ∈ s.runs ++ stage.waiting, ∀ pass number, stage.IsAhead pass number →
    file ≠ spec.mergeName pass number

variable {spec : SortSpec} {capacity : Nat} {root : TempRoot} {s t : RunSet} {before : Folder}
  {initial group : List String} {later : List (List String)} {pass number : Nat}
  {stage : MergeStage}

namespace IsTracked

theorem mergeName_not_mem
    (h : IsTracked spec capacity before initial (.within pass number (group :: later)) t) :
    spec.mergeName pass number ∉ t.runs ++ (group ++ later.flatten) := fun hmem =>
  h.free _ hmem pass number (.inr ⟨rfl, Nat.le_refl _⟩) rfl

theorem begin (hbuffers : 3 ≤ spec.numBuffers)
    (h : IsTracked spec capacity before initial (.between pass) t) :
    IsTracked spec capacity before initial (.within pass 0 (chunks (spec.numBuffers - 1) t.runs))
      { t with runs := [] } := by
  have hwaiting : (chunks (spec.numBuffers - 1) t.runs).flatten = t.runs :=
    flatten_chunks (by omega) t.runs
  obtain ⟨htracks, hfree⟩ := h
  rw [MergeStage.waiting, List.append_nil] at htracks hfree
  constructor
  · rw [MergeStage.waiting, hwaiting]
    exact htracks
  · rw [MergeStage.waiting, hwaiting]
    intro file hfile p g hahead
    refine hfree file hfile p g ?_
    rcases hahead with hlater | ⟨hsame, -⟩
    · exact Nat.le_of_lt hlater
    · exact Nat.le_of_eq hsame

theorem finish (h : IsTracked spec capacity before initial (.within pass number []) t)
    (stats : SortStats) :
    IsTracked spec capacity before initial (.between (pass + 1)) { t with stats } :=
  ⟨h.tracks, fun file hfile p g hahead => h.free file hfile p g (.inl hahead)⟩

theorem carry {run : String}
    (h : IsTracked spec capacity before initial (.within pass number ([run] :: later)) t) :
    IsTracked spec capacity before initial (.within pass (number + 1) later)
      { t with runs := t.runs ++ [run] } := by
  have hsame : t.runs ++ [run] ++ later.flatten = t.runs ++ ([run] :: later).flatten := by
    rw [List.flatten_cons, List.append_assoc]
  constructor
  · exact hsame ▸ h.tracks
  · intro file hfile p g hahead
    have hfile' : file ∈ t.runs ++ ([run] :: later).flatten := hsame ▸ hfile
    refine h.free file hfile' p g ?_
    rcases hahead with hlater | ⟨hsame, hnumber⟩
    · exact .inl hlater
    · exact .inr ⟨hsame, Nat.le_of_succ_le hnumber⟩

theorem replace {mid after : Folder} {rows : List Row}
    (h : IsTracked spec capacity before initial (.within pass number (group :: later)) t)
    (hmid : t.folder = some mid) (hinitial : spec.mergeName pass number ∉ initial)
    (hchange : mid.ChangesOnly after (spec.mergeName pass number))
    (hreads : after.ReadsAs capacity (spec.mergeName pass number) rows)
    (hrows : rows.Perm (group.flatMap (mid.readableRows capacity))) (stats : SortStats) :
    IsTracked spec capacity before initial (.within pass (number + 1) later)
      ⟨some (group.foldl Folder.remove after), t.runs ++ [spec.mergeName pass number], stats⟩ := by
  obtain ⟨folder, hfolder, hkeeps⟩ := h.tracks
  obtain rfl := Option.some.inj (hmid.symm.trans hfolder)
  have hlisted : t.runs ++ [spec.mergeName pass number] ++ later.flatten =
      t.runs ++ spec.mergeName pass number :: later.flatten := List.append_cons _ _ _ |>.symm
  constructor
  · refine ⟨_, rfl, ?_⟩
    rw [MergeStage.waiting, hlisted]
    exact hkeeps.replace hchange h.mergeName_not_mem hinitial ⟨pass, number, rfl⟩ hreads hrows
  · intro file hfile p g hahead
    rw [MergeStage.waiting, hlisted, List.perm_middle.mem_iff, List.mem_cons] at hfile
    rcases hfile with rfl | hfile
    · intro heq
      obtain ⟨rfl, rfl⟩ := SortSpec.mergeName_inj heq
      rcases hahead with hlater | ⟨-, hnumber⟩
      · exact Nat.lt_irrefl _ hlater
      · exact Nat.lt_irrefl _ hnumber
    · refine h.free file ?_ p g ?_
      · rw [MergeStage.waiting, List.flatten_cons]
        grind
      · rcases hahead with hlater | ⟨hsame, hnumber⟩
        · exact .inl hlater
        · exact .inr ⟨hsame, Nat.le_of_succ_le hnumber⟩

end IsTracked

/-- What becomes of a group that is not a single run. -/
theorem passGroup_of_ne_singleton {file : String} {later : List String}
    (h : ∀ run, group ≠ [run]) :
    passGroup spec capacity file later group = (do
      match ← Act.attempt (mergeGroup spec capacity group file) with
      | .ok () =>
        track file
        modifyStats fun t => { t with mergedRuns := t.mergedRuns + 1 }
        discard group
      | .error f =>
        modify fun s => { s with runs := s.runs ++ (group ++ later) }
        Act.abandon f) := by
  rcases group with _ | ⟨run, _ | ⟨second, rest⟩⟩
  · rfl
  · exact absurd rfl (h run)
  · rfl

/-- No run is lost when a group goes to the next pass, nor when that fails. -/
theorem IsTracked.ensures_passGroup (root : TempRoot)
    (h : IsTracked spec capacity before initial (.within pass number (group :: later)) t)
    (hinitial : spec.mergeName pass number ∉ initial) :
    (passGroup spec capacity (spec.mergeName pass number) later.flatten group).Ensures root t
      fun answer u => match answer with
        | .ok () => IsTracked spec capacity before initial (.within pass (number + 1) later) u
        | .error _ => u.Tracks spec capacity before initial u.runs := by
  by_cases hsingle : ∃ run, group = [run]
  · obtain ⟨run, rfl⟩ := hsingle
    exact h.carry
  · rw [passGroup_of_ne_singleton (not_exists.mp hsingle)]
    obtain ⟨mid, hmid, hkeeps⟩ := h.tracks
    refine Act.Ensures.attempt_bind
      (Act.Ensures.and (fixes_runs_mergeGroup spec capacity group _ root t)
        (ensures_mergeGroup root hmid)) ?_
    rintro (e | _) ⟨folder, runs, stats⟩ ⟨hruns, after, hafter, hchange, hmerged⟩
    · obtain rfl := hafter
      obtain rfl := hruns
      exact ⟨after, rfl, hkeeps.of_gone hchange h.mergeName_not_mem hmerged⟩
    · obtain rfl := hafter
      obtain rfl := hruns
      obtain ⟨rows, hreads, hrows⟩ := hmerged
      exact h.replace hmid hinitial hchange hreads hrows _

theorem isTracked_of_reaches (hbuffers : 3 ≤ spec.numBuffers)
    (hinitial : ∀ run ∈ initial, ∀ pass number, run ≠ spec.mergeName pass number)
    (hstart : IsTracked spec capacity before initial (.between 1) s)
    (h : Reaches spec capacity root s stage t) : IsTracked spec capacity before initial stage t := by
  induction h with
  | start => exact hstart
  | begin _ _ ih => exact ih.begin hbuffers
  | @group pass number _ _ _ _ _ hgroup ih =>
    exact hgroup.ensured (ih.ensures_passGroup root fun hmem => hinitial _ hmem pass number rfl)
  | finish _ ih => exact ih.finish _

/-- Whether merging fails at a group that it reaches. -/
def StopsAt (spec : SortSpec) (capacity : Nat) (root : TempRoot) (s : RunSet) (e : Failure)
    (t : RunSet) : Prop :=
  ∃ pass number group later u, Reaches spec capacity root s (.within pass number (group :: later)) u ∧
    (passGroup spec capacity (spec.mergeName pass number) later.flatten group).FailsIn root u e (· = t)

/-- No run is lost when merging fails. -/
theorem StopsAt.tracks {e : Failure} (h : StopsAt spec capacity root s e t)
    (hstage : ∀ {stage : MergeStage} {u : RunSet}, Reaches spec capacity root s stage u →
      IsTracked spec capacity before initial stage u)
    (hinitial : ∀ run ∈ initial, ∀ pass number, run ≠ spec.mergeName pass number) :
    t.Tracks spec capacity before initial t.runs := by
  obtain ⟨pass, number, group, later, u, hreaches, hfails⟩ := h
  have hpass := (hstage hreaches).ensures_passGroup root fun hmem =>
    hinitial _ hmem pass number rfl
  unfold Act.Ensures at hpass
  obtain ⟨hanswer, rfl⟩ := hfails
  rw [hanswer] at hpass
  exact hpass

theorem ensures_mergeGroups {groups : List (List String)}
    (h : Reaches spec capacity root s (.within pass number groups) t) :
    (mergeGroups spec capacity pass number groups).Ensures root t fun answer u => match answer with
      | .ok () => Reaches spec capacity root s (.within pass (number + groups.length) []) u
      | .error e => StopsAt spec capacity root s e u := by
  induction groups generalizing number t with
  | nil => exact h
  | cons group later ih =>
    have hgroup : (passGroup spec capacity (spec.mergeName pass number) later.flatten group).Ensures
        root t fun answer u => match answer with
          | .ok () => Reaches spec capacity root s (.within pass (number + 1) later) u
          | .error e => StopsAt spec capacity root s e u := by
      unfold Act.Ensures
      cases hanswer : ((passGroup spec capacity (spec.mergeName pass number) later.flatten
        group).run root t).answer with
      | ok _ => exact h.group ⟨hanswer, rfl⟩
      | error e => exact ⟨pass, number, group, later, t, h, hanswer, rfl⟩
    refine hgroup.bind (fun _ _ he => he) fun _ u hu => ?_
    rw [List.length_cons, Nat.add_comm later.length, ← Nat.add_assoc]
    exact ih hu

/-- Passes are made until at most one run is left, or merging fails. -/
theorem ensures_mergePasses (hbuffers : 3 ≤ spec.numBuffers) {steps : Nat}
    (hsteps : t.runs.length ≤ steps + 1)
    (h : Reaches spec capacity root s (.between pass) t) :
    (mergePasses spec capacity (spec.numBuffers - 1) steps pass).Ensures root t fun answer u => match answer with
      | .ok () => (∃ pass, Reaches spec capacity root s (.between pass) u) ∧
        u.runs.length = min t.runs.length 1
      | .error e => StopsAt spec capacity root s e u := by
  induction steps generalizing pass t with
  | zero => exact ⟨⟨pass, h⟩, (Nat.min_eq_left hsteps).symm⟩
  | succ steps ih =>
    rw [mergePasses]
    refine Act.ensures_get_bind.mpr ?_
    by_cases hmany : 1 < t.runs.length
    · rw [if_pos hmany]
      have hfewer : (chunks (spec.numBuffers - 1) t.runs).length < t.runs.length :=
        length_chunks_lt (by omega) hmany
      have hlength : (mergeGroups spec capacity pass 0 (chunks (spec.numBuffers - 1) t.runs)).Ensures
          root { t with runs := [] } fun answer u => answer = .ok () →
            u.runs.length = (chunks (spec.numBuffers - 1) t.runs).length := fun hanswer =>
        (length_of_gives_mergeGroups ⟨hanswer, rfl⟩).trans (Nat.zero_add _)
      have hpass := ensures_mergeGroups (h.begin hmany)
      refine Act.ensures_set_bind.mpr
        ((Act.gives_require (chunks?_of_pos (by omega) _)).bind_ensures ?_)
      refine (hpass.and hlength).bind (fun _ _ he => he.1) ?_
      rintro _ u ⟨hu, hcount⟩
      replace hcount := hcount rfl
      refine Act.ensures_modify_bind.mpr ((ih (by dsimp only; omega) hu.finish).mono ?_)
      rintro (e | _) v hv
      · exact hv
      · refine ⟨hv.1, hv.2.trans ?_⟩
        have hpos : 0 < (chunks (spec.numBuffers - 1) t.runs).length := by
          rw [chunks_of_ne_nil (by omega) (List.length_pos_iff.mp (by omega))]
          exact Nat.succ_pos _
        dsimp only
        omega
    · rw [if_neg hmany]
      exact ⟨⟨pass, h⟩, (Nat.min_eq_left (Nat.le_of_not_lt hmany)).symm⟩

/-- Merging keeps track of every run. Whether it answers or fails with an error, the listed files are
all runs that are left, no two of them the same, and hold the rows that could be read at first; if it
answers, no more than one is listed. Before each merge this holds of the listed runs and those that
wait in the pass, and the merge writes to none of these. -/
theorem keeps_track_of_runs (spec : SortSpec) (capacity : Nat) (root : TempRoot) (s : RunSet)
    (folder : Folder) (hbuffers : 3 ≤ spec.numBuffers) (hfolder : s.folder = some folder)
    (hnodup : s.runs.Nodup) (hpresent : ∀ run ∈ s.runs, (folder.read? run).isSome)
    (hnames : ∀ run ∈ s.runs, ∀ pass number, run ≠ spec.mergeName pass number) :
    ((mergeAll spec capacity).Ensures root s fun answer t => match answer with
      | .ok () => t.Tracks spec capacity folder s.runs t.runs ∧
        t.runs.length = min s.runs.length 1 ∧
        ∃ pass, Reaches spec capacity root s (.between pass) t
      | .error (.error e) => t.Tracks spec capacity folder s.runs t.runs ∧
        StopsAt spec capacity root s (.error e) t
      | .error _ => True) ∧
    ∀ pass number group later t,
      Reaches spec capacity root s (.within pass number (group :: later)) t →
      t.Tracks spec capacity folder s.runs (t.runs ++ (group ++ later.flatten)) ∧
      spec.mergeName pass number ∉ t.runs ++ (group ++ later.flatten) ∧
      (mergeGroup spec capacity group (spec.mergeName pass number)).Ensures root t fun _ u =>
        u.runs = t.runs ∧ ∃ before after, t.folder = some before ∧ u.folder = some after ∧
          before.ChangesOnly after (spec.mergeName pass number) := by
  have hstart : IsTracked spec capacity folder s.runs (.between 1) s := by
    constructor
    · rw [MergeStage.waiting, List.append_nil]
      exact ⟨folder, hfolder, Folder.keepsTrack_refl hnodup hpresent⟩
    · rw [MergeStage.waiting, List.append_nil]
      exact fun run hrun p g _ => hnames run hrun p g
  have hstage {stage : MergeStage} {t : RunSet} (h : Reaches spec capacity root s stage t) :
      IsTracked spec capacity folder s.runs stage t := isTracked_of_reaches hbuffers hnames hstart h
  constructor
  · have hpasses := ensures_mergePasses hbuffers (Nat.le_succ s.runs.length)
      (.start : Reaches spec capacity root s (.between 1) s)
    refine (Act.gives_require (fanIn?_of_pos (by omega))).bind_ensures
      (Act.ensures_get_bind.mpr (hpasses.mono ?_))
    rintro (e | _) t ht
    · cases e with
      | error e => exact ⟨ht.tracks hstage fun run hrun p g => hnames run hrun p g, ht⟩
      | outOfRange => trivial
      | outOfMemory => trivial
    · obtain ⟨⟨pass, hreaches⟩, hlength⟩ := ht
      have htracks := (hstage hreaches).tracks
      rw [MergeStage.waiting, List.append_nil] at htracks
      exact ⟨htracks, hlength, pass, hreaches⟩
  · intro pass number group later t ht
    have hgroup := hstage ht
    obtain ⟨mid, hmid, -⟩ := hgroup.tracks
    refine ⟨hgroup.tracks, hgroup.mergeName_not_mem, ?_⟩
    refine ((fixes_runs_mergeGroup spec capacity group _ root t).and
      (ensures_mergeGroup root hmid)).mono ?_
    rintro _ u ⟨hruns, after, hafter, hchange, -⟩
    exact ⟨hruns, mid, after, hmid, hafter, hchange⟩

def bytesOf (rows : List Row) : Bytes :=
  match RunFile.encode "" [⟨2, rows⟩] with
  | .ok content => content
  | .error _ => []

/-- A folder with four runs of which the last is cut off. -/
def cutFolder : Folder :=
  ⟨"s-sort-", true, [("s-run-1", bytesOf [[.int 3]]), ("s-run-2", bytesOf [[.int 2], [.int 4]]),
    ("s-run-3", bytesOf [[.int 1]]), ("s-run-4", (bytesOf [[.int 5], [.int 6]]).dropLast)]⟩

/-- The first two runs are merged; then the last one is found to be cut off, and the merged run is
listed with the two that are left. -/
theorem keeps_track_of_runs_cutFolder :
    ∃ t, (mergeAll (MergeSort.byFirst 3) 2).FailsIn ⟨true⟩
        ⟨some cutFolder, [1, 2, 3, 4].map (MergeSort.byFirst 3).runName, {}⟩
        (.error (.runFile "s-sort-/s-run-4" .truncated)) (· = t) ∧
      t.runs = ["s-merge-1-0", "s-run-3", "s-run-4"] ∧
      t.Tracks (MergeSort.byFirst 3) 2 cutFolder ([1, 2, 3, 4].map (MergeSort.byFirst 3).runName)
        t.runs := by
  let s : RunSet := ⟨some cutFolder, [1, 2, 3, 4].map (MergeSort.byFirst 3).runName, {}⟩
  have hnames : ∀ run ∈ s.runs, ∀ p g, run ≠ (MergeSort.byFirst 3).mergeName p g := by
    intro run hrun p g
    obtain ⟨n, -, rfl⟩ := List.mem_map.mp hrun
    exact SortSpec.runName_ne_mergeName n p g
  obtain ⟨t, hfails, hruns⟩ : ∃ t, (mergeAll (MergeSort.byFirst 3) 2).FailsIn ⟨true⟩ s
      (.error (.runFile "s-sort-/s-run-4" .truncated)) (· = t) ∧
        t.runs = ["s-merge-1-0", "s-run-3", "s-run-4"] :=
    ⟨_, ⟨by decide +kernel, rfl⟩, by decide +kernel⟩
  obtain ⟨htracks, -⟩ := (keeps_track_of_runs (MergeSort.byFirst 3) 2 ⟨true⟩ s cutFolder
    (Nat.le_refl 3) rfl (by decide +kernel) (by decide +kernel) hnames).imp_left hfails.ensured
  exact ⟨t, hfails, hruns, htracks.1⟩

end RunSet

end PagedQuery
