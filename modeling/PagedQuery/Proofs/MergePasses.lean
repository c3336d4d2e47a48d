import Mathlib.Logic.Relation
import PagedQuery.Proofs.LaneWriting
import PagedQuery.Proofs.RunGeneration

/-!
# Merge passes

A pass takes the runs of an input to fewer runs: a group of them becomes the merge of its rows, in
the place of the group. So the runs hold the rows of the input before and after a pass. Where the
rows can be ordered, sorting the rows of all runs gives the same before and after, and a single run
that is left is the sorted input.
-/

namespace PagedQuery

/-- Runs in a row, and the same with a group of them merged. -/
inductive MergeStep (key : List Nat) (descending : Bool) :
    List (List Row) → List (List Row) → Prop
  | intro {front group back : List (List Row)} {merged : List Row}
      (hmerge : mergeStreams key descending (group.map (⟨·, none⟩)) = .ok merged) :
      MergeStep key descending (front ++ (group ++ back)) (front ++ merged :: back)

/-- Runs in a row, and what some merges make of them. -/
abbrev MergesTo (key : List Nat) (descending : Bool) : List (List Row) → List (List Row) → Prop :=
  Relation.ReflTransGen (MergeStep key descending)

section MergesTo

variable {key : List Nat} {descending : Bool} {parts parts' : List (List Row)} {all : List Row}

theorem MergeStep.perm (h : MergeStep key descending parts parts') :
    parts'.flatten.Perm parts.flatten := by
  obtain ⟨hmerge⟩ := h
  rename_i front group back merged
  have hmerged : merged.Perm group.flatten := by
    rcases mergeStreams_cases key descending group with ⟨rows, hrows, hperm⟩ | ⟨hfails, -⟩
    · cases hrows.symm.trans hmerge
      exact hperm
    · cases hfails.symm.trans hmerge
  simp only [List.flatten_append, List.flatten_cons]
  exact (hmerged.append_right back.flatten).append_left front.flatten

theorem MergesTo.perm (h : MergesTo key descending parts parts') :
    parts'.flatten.Perm parts.flatten := by
  induction h with
  | refl => exact .refl _
  | tail _ hstep ih => exact hstep.perm.trans ih

/-- A merge keeps the runs sorted, and what sorting all their rows gives. -/
theorem MergeStep.areSorted (o : KeyOrder key descending all)
    (h : MergeStep key descending parts parts') (hparts : AreSorted o parts) :
    AreSorted o parts' ∧ parts'.flatten.mergeSort o.le = parts.flatten.mergeSort o.le := by
  obtain ⟨hmerge⟩ := h
  rename_i front group back merged
  have hgroup : AreSorted o group := fun part hpart =>
    hparts part (List.mem_append_right front (List.mem_append_left back hpart))
  rw [mergeStreams_eq o hgroup] at hmerge
  obtain rfl := Except.ok.inj hmerge
  have ho := o.orders
  constructor
  · intro part hpart
    rcases List.mem_append.mp hpart with hpart | hpart
    · exact hparts part (List.mem_append_left _ hpart)
    · rcases List.mem_cons.mp hpart with rfl | hpart
      · refine ⟨fun row hrow => ?_, List.pairwise_mergeSort ho.trans ho.total _⟩
        obtain ⟨part, hpart, hrow⟩ := List.mem_flatten.mp (List.mem_mergeSort.mp hrow)
        exact (hgroup part hpart).1 hrow
      · exact hparts part (List.mem_append_right front (List.mem_append_right group hpart))
  · simp only [List.flatten_append, List.flatten_cons]
    rw [← ho.mergeSort_append_mergeSort, ho.mergeSort_mergeSort_append,
      ho.mergeSort_append_mergeSort]

theorem MergesTo.areSorted (o : KeyOrder key descending all)
    (h : MergesTo key descending parts parts') (hparts : AreSorted o parts) :
    AreSorted o parts' ∧ parts'.flatten.mergeSort o.le = parts.flatten.mergeSort o.le := by
  induction h with
  | refl => exact ⟨hparts, rfl⟩
  | tail _ hstep ih =>
    obtain ⟨hsorted, hwhole⟩ := hstep.areSorted o ih.1
    exact ⟨hsorted, hwhole.trans ih.2⟩

end MergesTo

/-- The pieces of an input, each sorted. -/
def SortSpec.sortedPieces (spec : SortSpec) (capacity : Nat) (all : List Row) : List (List Row) :=
  (inputPieces (spec.numBuffers * capacity) all).map (Row.sortBy spec.key spec.descending)

namespace SortSpec

variable {spec : SortSpec} {capacity : Nat} {all : List Row}

theorem HasRoom.pos (h : spec.HasRoom capacity) : 0 < spec.numBuffers * capacity :=
  Nat.mul_pos (Nat.lt_of_lt_of_le (by decide) h.buffers) h.capacity_pos

theorem sortedPieces_perm (h : spec.HasRoom capacity) (all : List Row) :
    (spec.sortedPieces capacity all).flatten.Perm all := by
  have hpieces : ∀ pieces : List (List Row),
      (pieces.map (Row.sortBy spec.key spec.descending)).flatten.Perm pieces.flatten := by
    intro pieces
    induction pieces with
    | nil => exact .refl _
    | cons piece pieces ih =>
      exact (Row.sortBy_perm spec.key spec.descending piece).append ih
  have hall := hpieces (inputPieces (spec.numBuffers * capacity) all)
  rwa [flatten_inputPieces h.pos] at hall

/-- The pieces are sorted in every order of the key, and sorting them again is sorting the input. -/
theorem areSorted_sortedPieces (h : spec.HasRoom capacity)
    (o : KeyOrder spec.key spec.descending all) :
    AreSorted o (spec.sortedPieces capacity all) ∧
      (spec.sortedPieces capacity all).flatten.mergeSort o.le = all.mergeSort o.le := by
  have hsub : ∀ piece ∈ inputPieces (spec.numBuffers * capacity) all, piece ⊆ all := by
    intro piece hpiece row hrow
    rw [← flatten_inputPieces h.pos all]
    exact List.mem_flatten.mpr ⟨piece, hpiece, hrow⟩
  have hsorted : spec.sortedPieces capacity all =
      (inputPieces (spec.numBuffers * capacity) all).map (·.mergeSort o.le) :=
    List.map_congr_left fun piece hpiece => o.sortBy_eq (hsub piece hpiece)
  constructor
  · rw [hsorted]
    intro part hpart
    obtain ⟨piece, hpiece, rfl⟩ := List.mem_map.mp hpart
    exact ⟨fun row hrow => hsub piece hpiece (List.mem_mergeSort.mp hrow),
      List.pairwise_mergeSort o.orders.trans o.orders.total piece⟩
  · rw [hsorted, o.orders.mergeSort_flatten, flatten_inputPieces h.pos]

end SortSpec

namespace StoredRun

variable {spec : SortSpec} {all : List Row} {capacity : Nat}

/-- Whether runs hold what merges have made of the sorted pieces of the input, on full pages. -/
structure AreParts (spec : SortSpec) (all : List Row) (runs : List (StoredRun capacity)) : Prop where
  pages : ∀ run ∈ runs, run.batches = Batch.pages capacity run.rows
  merged : MergesTo spec.key spec.descending (spec.sortedPieces capacity all) (runs.map rows)

variable {front group back : List (StoredRun capacity)} {run : StoredRun capacity}

namespace AreParts

theorem perm (hroom : spec.HasRoom capacity) {runs : List (StoredRun capacity)}
    (h : AreParts spec all runs) : (runs.map rows).flatten.Perm all :=
  h.merged.perm.trans (SortSpec.sortedPieces_perm hroom all)

theorem rows_group (hroom : spec.HasRoom capacity)
    (h : AreParts spec all (front ++ (group ++ back))) :
    (group.map rows).flatten ⊆ all ∧ (group.map rows).flatten.length ≤ all.length := by
  have hperm := h.perm hroom
  simp only [List.map_append, List.flatten_append] at hperm
  constructor
  · intro row hrow
    exact hperm.mem_iff.mp (List.mem_append_right _ (List.mem_append_left _ hrow))
  · have hlength := hperm.length_eq
    rw [List.length_append, List.length_append] at hlength
    omega

/-- A group of runs may be replaced by the merge of its rows. -/
theorem replace (h : AreParts spec all (front ++ (group ++ back)))
    (hpages : run.batches = Batch.pages capacity run.rows)
    (hrows : mergeStreams spec.key spec.descending ((group.map rows).map (⟨·, none⟩)) =
      .ok run.rows) :
    AreParts spec all (front ++ (run :: back)) := by
  constructor
  · intro other hother
    rcases List.mem_append.mp hother with hother | hother
    · exact h.pages other (List.mem_append_left _ hother)
    · rcases List.mem_cons.mp hother with rfl | hother
      · exact hpages
      · exact h.pages other (List.mem_append_right _ (List.mem_append_right _ hother))
  · have hmerged := h.merged
    simp only [List.map_append, List.map_cons] at hmerged ⊢
    exact hmerged.tail ⟨hrows⟩

theorem rows_eq (hroom : spec.HasRoom capacity) (o : KeyOrder spec.key spec.descending all)
    (h : AreParts spec all [run]) : run.rows = Row.sortBy spec.key spec.descending all := by
  obtain ⟨hpieces, hinput⟩ := SortSpec.areSorted_sortedPieces hroom o
  obtain ⟨hsorted, hwhole⟩ := MergesTo.areSorted o h.merged hpieces
  rw [List.map_singleton, List.flatten_singleton] at hwhole
  rw [o.sortBy_eq (List.Subset.refl all), ← hinput, ← hwhole]
  exact (List.mergeSort_of_pairwise (hsorted _ List.mem_cons_self).2).symm

end AreParts

end StoredRun

/-- The sizes of the groups that so many runs are merged in. -/
def groupSizes (fanIn runs : Nat) : List Nat :=
  (chunks fanIn (List.replicate runs ())).map List.length

theorem groupSizes_length {α : Type} {fanIn : Nat} (hfan : 0 < fanIn) (runs : List α) :
    groupSizes fanIn runs.length = (chunks fanIn runs).map List.length := by
  rw [groupSizes, ← List.map_const', chunks_map hfan, List.map_map]
  exact List.map_congr_left fun group _ => List.length_map _

namespace SortStats

/-- The counters after a group of so many runs. -/
def afterGroup (t : SortStats) (runs : Nat) : SortStats :=
  if runs = 1 then t
  else { t with maxFanIn := max t.maxFanIn runs, mergedRuns := t.mergedRuns + 1 }

/-- The counters after all passes from this one on, the first of which has so many runs. -/
def afterPasses (fanIn : Nat) : Nat → Nat → Nat → SortStats → SortStats
  | 0, _, _, t => t
  | steps + 1, pass, runs, t =>
    if 1 < runs then
      afterPasses fanIn steps (pass + 1) (groupSizes fanIn runs).length
        { (groupSizes fanIn runs).foldl afterGroup t with mergePasses := pass }
    else t

end SortStats

namespace RunSet

variable {spec : SortSpec} {capacity : Nat} {all : List Row} {root : TempRoot} {s : RunSet}
  {runs group : List (StoredRun capacity)} {folder : Folder}

theorem exists_readers (hread : ∀ run ∈ group, folder.read? run.name = some run.content) :
    ∃ readers, (group.map StoredRun.name).mapM (RunFile.Reader.ofFile folder · capacity) =
      .ok readers ∧ readers.map (·.stream) = (group.map StoredRun.rows).map (⟨·, none⟩) := by
  induction group with
  | nil => exact ⟨[], rfl, rfl⟩
  | cons run group ih =>
    rw [List.forall_mem_cons] at hread
    obtain ⟨reader, hreader, hbatches⟩ := run.isRun.exists_handsOut (folder.path run.name)
    obtain ⟨readers, hreaders, hstreams⟩ := ih hread.2
    refine ⟨reader :: readers, ?_, ?_⟩
    · rw [List.map_cons, List.mapM_cons, RunFile.Reader.ofFile, hread.1, hreaders]
      simp only [hreader]
      rfl
    · rw [List.map_cons, hbatches.stream_eq, hstreams]
      rfl

theorem fanIn?_of_pos (h : 0 < spec.numBuffers) : spec.fanIn? = some (spec.numBuffers - 1) :=
  if_neg (by omega)

theorem fixes_workingFolder {γ : Type} {g : RunSet → γ} : workingFolder.Fixes g := by
  refine Act.fixes_get_bind fun s => ?_
  split
  · exact Act.fixes_pure _
  · exact Act.fixes_abandon _

/-- A merge changes nothing but the counters and what is written. -/
theorem fixes_mergeGroup {γ : Type} {g : RunSet → γ} {file : String}
    (hcounted : ∀ f, (modifyStats f).Fixes g)
    (hwritten : ∀ rows lanes, (onFolder (writeMerged spec capacity file rows lanes)).Fixes g)
    (group : List String) : (mergeGroup spec capacity group file).Fixes g := by
  unfold mergeGroup
  split
  · exact Act.fixes_fail_bind
  · refine (Act.fixes_require _).bind fun fanIn => ?_
    split
    · exact Act.fixes_fail_bind
    · exact (hcounted _).bind fun _ => fixes_workingFolder.bind fun _ =>
        (Act.fixes_ofExcept _).bind fun _ => (Act.fixes_ofAnswer _).bind fun _ => hwritten _ _

def counting (s : RunSet) (merged : Nat) : RunSet :=
  { s with stats := { s.stats with maxFanIn := max s.stats.maxFanIn merged } }

theorem ensures_mergeGroup_of_readers {names : List String} {file : String}
    {readers : List RunFile.Reader} {post : Except Failure Unit → RunSet → Prop} (hne : names ≠ [])
    (hfan : names.length ≤ spec.numBuffers - 1) (hfolder : s.folder = some folder)
    (hreaders : names.mapM (RunFile.Reader.ofFile folder · capacity) = .ok readers)
    (hlanes : ∀ lanes, Lane.ofReaders spec.key readers = .ok lanes →
      (writeMerged spec capacity file (total (·.input.length) readers) lanes).Ensures root folder
        fun answer t => post answer { s.counting names.length with folder := some t })
    (herror : ∀ e, Lane.ofReaders spec.key readers = .error e →
      post (.error e) (s.counting names.length)) :
    (mergeGroup spec capacity names file).Ensures root s post := by
  have hpos := List.length_pos_iff.mpr hne
  have hcounted : (s.counting names.length).folder = some folder := hfolder
  unfold mergeGroup
  rw [if_neg (by simpa using hne)]
  refine (Act.gives_require (fanIn?_of_pos (by omega))).bind_ensures ?_
  rw [if_neg (Nat.not_lt.mpr hfan)]
  refine (Act.gives_modify _).bind_ensures ((gives_workingFolder hcounted).bind_ensures ?_)
  refine (Act.gives_ofExcept hreaders).bind_ensures ?_
  cases h : Lane.ofReaders spec.key readers with
  | error e => exact herror e h
  | ok lanes => exact Act.gives_pure.bind_ensures (ensures_onFolder hcounted (hlanes lanes h))

/-- A group of runs becomes one more run, which holds the merge of their rows. -/
theorem attains_mergeGroup (root : TempRoot) (hc : 0 < capacity)
    (hmemory : fitsMemory capacity Batch.rowRoom = true) (hfolder : s.folder = some folder)
    (hholds : folder.Holds runs) (hgroup : group ⊆ runs) (hne : group ≠ [])
    (hfan : group.length ≤ spec.numBuffers - 1) (hrows : (group.map StoredRun.rows).flatten ⊆ all)
    (hlength : (group.map StoredRun.rows).flatten.length ≤ all.length) {file : String}
    (hname : spec.Names all.length file) (hnew : file ∉ runs.map StoredRun.name) :
    (mergeGroup spec capacity (group.map StoredRun.name) file).Attains root s
      (fun _ t => ∃ (run : StoredRun capacity) (folder' : Folder), run.name = file ∧
        run.batches = Batch.pages capacity run.rows ∧
        mergeStreams spec.key spec.descending ((group.map StoredRun.rows).map (⟨·, none⟩)) =
          .ok run.rows ∧
        folder'.Holds (run :: runs) ∧
        t = { s with
          folder := some folder'
          stats := { s.stats with maxFanIn := max s.stats.maxFanIn group.length } })
      (SortFault spec capacity all) := by
  obtain ⟨readers, hreaders, hstreams⟩ :=
    exists_readers fun run hrun => hholds.read?_eq (hgroup hrun)
  have hshort (h : ∃ row ∈ (group.map StoredRun.rows).flatten, ¬Row.HasKey spec.key row) :
      SortFault spec capacity all .outOfRange := by
    obtain ⟨row, hrow, hshort⟩ := h
    exact .shortRow (hrows hrow) hshort
  rw [← List.length_map StoredRun.name]
  refine ensures_mergeGroup_of_readers (by simpa using hne) (by simpa using hfan) hfolder hreaders
    (fun lanes hlanes => ensures_writeMerged (fun merged content hmerge _ hencode => ?_) ?_)
    fun e he => ?_
  · obtain ⟨-, hall⟩ := merge_ofReaders spec.descending hlanes
    rw [hall, hstreams] at hmerge
    let run : StoredRun capacity := ⟨file, Batch.pages capacity merged, content,
      RunFile.isRun_of_encode_pages hc hencode⟩
    have hrun : run.rows = merged := Batch.flatMap_rows_pages hc merged
    exact ⟨run, folder.put file content, rfl, by rw [hrun], hrun ▸ hmerge, hholds.put run hnew, rfl⟩
  · obtain ⟨hviews, hall⟩ := merge_ofReaders spec.descending hlanes
    rw [hstreams] at hviews hall
    rintro e (hlegal | hfull | ⟨hzero, _⟩ | ⟨htaken, hencode⟩ | hmerge)
    · exact .name hname hlegal
    · rw [hmemory] at hfull
      cases hfull
    · exact absurd hc (by omega)
    · rcases Lane.ofStreams_cases spec.key (group.map StoredRun.rows) with
        ⟨lanes', hlanes', -, hleft⟩ | ⟨hfails, -⟩
      · obtain rfl := Except.ok.inj (hlanes'.symm.trans hviews)
        rw [hleft] at htaken
        exact .encoding (fun row hrow => hrows (htaken.subset hrow))
          (Nat.le_trans htaken.length_le hlength) hencode
      · cases hfails.symm.trans hviews
    · rw [hall] at hmerge
      rcases mergeStreams_cases spec.key spec.descending (group.map StoredRun.rows) with
        ⟨merged, hmerged, -⟩ | ⟨hfails, hrow⟩
      · cases hmerged.symm.trans hmerge
      · obtain rfl := Except.error.inj (hfails.symm.trans hmerge)
        exact hshort hrow
  · have hviews := Lane.ofStreams_stream spec.key readers
    rw [he, hstreams] at hviews
    rcases Lane.ofStreams_cases spec.key (group.map StoredRun.rows) with
      ⟨lanes, hlanes, -⟩ | ⟨hfails, hrow⟩
    · cases hlanes.symm.trans hviews
    · obtain rfl := Except.error.inj (hfails.symm.trans hviews)
      exact hshort hrow

/-- Where a pass stands: these runs are listed for the next pass, those are still to come, and the
names of merged runs from this number of this pass on are not taken. -/
structure InPass (spec : SortSpec) (all : List Row) (s : RunSet)
    (done todo : List (StoredRun capacity)) (pass number : Nat) : Prop where
  folder : ∃ folder, s.folder = some folder ∧ folder.Holds (done ++ todo)
  runs_eq : s.runs = done.map StoredRun.name
  parts : StoredRun.AreParts spec all (done ++ todo)
  free : ∀ run ∈ done ++ todo, ∀ p g, pass < p ∨ pass = p ∧ number ≤ g →
    run.name ≠ spec.mergeName p g

variable {done todo : List (StoredRun capacity)} {pass number : Nat}

theorem InPass.carry {run : StoredRun capacity}
    (hs : s.InPass spec all done (run :: todo) pass number) :
    InPass spec all { s with runs := s.runs ++ [run.name] } (done ++ [run]) todo pass
      (number + 1) := by
  have hmove : done ++ [run] ++ todo = done ++ run :: todo := by simp
  constructor
  · rw [hmove]
    exact hs.folder
  · rw [List.map_append, ← hs.runs_eq]
    rfl
  · rw [hmove]
    exact hs.parts
  · rw [hmove]
    intro other hother p g hlater
    exact hs.free other hother p g (by omega)

theorem InPass.replace {run : StoredRun capacity}
    (hs : s.InPass spec all done (group ++ todo) pass number)
    (hname : run.name = spec.mergeName pass number)
    (hpages : run.batches = Batch.pages capacity run.rows)
    (hrows : mergeStreams spec.key spec.descending
      ((group.map StoredRun.rows).map (⟨·, none⟩)) = .ok run.rows)
    (hholds : folder.Holds (run :: (done ++ (group ++ todo)))) (stats : SortStats) :
    InPass spec all ⟨some ((group.map StoredRun.name).foldl Folder.remove folder),
      s.runs ++ [spec.mergeName pass number], stats⟩ (done ++ [run]) todo pass (number + 1) := by
  have hmove : done ++ [run] ++ todo = done ++ run :: todo := by simp
  constructor
  · refine ⟨_, rfl, ?_⟩
    have hgroup : (run :: (done ++ (group ++ todo))).Perm (run :: (group ++ (done ++ todo))) :=
      (List.perm_append_comm_assoc done group todo).cons run
    have hrun : (run :: (group ++ (done ++ todo))).Perm (group ++ (done ++ run :: todo)) :=
      List.perm_middle.symm.trans (List.perm_middle.symm.append_left group)
    rw [hmove]
    exact (hholds.perm (hgroup.trans hrun)).removeAll
  · rw [List.map_append, ← hs.runs_eq, List.map_singleton, hname]
  · rw [hmove]
    exact hs.parts.replace hpages hrows
  · rw [hmove]
    intro other hother p g hlater
    rcases List.mem_append.mp hother with hother | hother
    · exact hs.free other (List.mem_append_left _ hother) p g (by omega)
    · rcases List.mem_cons.mp hother with rfl | hother
      · rw [hname]
        intro heq
        obtain ⟨hp, hg⟩ := SortSpec.mergeName_inj heq
        omega
      · exact hs.free other (List.mem_append_right _ (List.mem_append_right _ hother)) p g (by omega)

/-- A group of runs goes to the next pass as one run. -/
theorem InPass.attains_passGroup (root : TempRoot) (h : spec.HasRoom capacity)
    (hs : s.InPass spec all done (group ++ todo) pass number) (hne : group ≠ [])
    (hfan : group.length ≤ spec.numBuffers - 1) (hpass : pass ≤ all.length)
    (hnumber : number ≤ all.length) :
    (passGroup spec capacity (spec.mergeName pass number) (todo.map StoredRun.name)
      (group.map StoredRun.name)).Attains root s
      (fun _ s' => ∃ run : StoredRun capacity,
        s'.InPass spec all (done ++ [run]) todo pass (number + 1) ∧
        s'.stats = SortStats.afterGroup s.stats group.length)
      (SortFault spec capacity all) := by
  rcases group with _ | ⟨first, _ | ⟨second, rest⟩⟩
  · exact absurd rfl hne
  · exact (Act.gives_modify _).attains ⟨first, hs.carry, rfl⟩
  · obtain ⟨folder, hfolder, hholds⟩ := hs.folder
    obtain ⟨hsub, hlength⟩ := hs.parts.rows_group h
    have hgroup : first :: second :: rest ⊆ done ++ (first :: second :: rest ++ todo) :=
      fun run hrun => List.mem_append_right _ (List.mem_append_left _ hrun)
    have hnew : spec.mergeName pass number ∉
        (done ++ (first :: second :: rest ++ todo)).map StoredRun.name := by
      intro hmem
      obtain ⟨run, hrun, hname⟩ := List.mem_map.mp hmem
      exact hs.free run hrun pass number (Or.inr ⟨rfl, Nat.le_refl _⟩) hname
    have hmerge := attains_mergeGroup root h.capacity_pos h.page hfolder hholds hgroup hne
      hfan hsub hlength (.inr ⟨pass, hpass, number, hnumber, rfl⟩) hnew
    refine hmerge.attempt_bind ?_ ?_
    · rintro _ t ⟨run, folder', hname, hpages, hrows, hholds', rfl⟩
      refine (Act.gives_modify _).bind_attains ((Act.gives_modify _).bind_attains
        ((Act.gives_modify _).attains ⟨run, ?_, ?_⟩))
      · exact hs.replace hname hpages hrows hholds' { s.stats with
          maxFanIn := max s.stats.maxFanIn (first :: second :: rest).length
          mergedRuns := s.stats.mergedRuns + 1 }
      · simp [SortStats.afterGroup]
    · exact fun e t he => (Act.gives_modify _).bind_attains (Act.attains_abandon.mpr he)

theorem InPass.attains_mergeGroups (root : TempRoot) (h : spec.HasRoom capacity)
    {groups : List (List (StoredRun capacity))}
    (hs : s.InPass spec all done groups.flatten pass number)
    (hgroups : ∀ group ∈ groups, 1 ≤ group.length ∧ group.length ≤ spec.numBuffers - 1)
    (hpass : pass ≤ all.length) (hnumber : number + groups.length ≤ all.length) :
    (mergeGroups spec capacity pass number (groups.map (·.map StoredRun.name))).Attains root s
      (fun _ s' => ∃ done' : List (StoredRun capacity),
        s'.InPass spec all done' [] pass (number + groups.length) ∧
        done'.length = done.length + groups.length ∧
        s'.stats = (groups.map List.length).foldl SortStats.afterGroup s.stats)
      (SortFault spec capacity all) := by
  induction groups generalizing done number s with
  | nil => exact Act.gives_pure.attains ⟨done, hs, rfl, rfl⟩
  | cons group groups ih =>
    rw [List.forall_mem_cons] at hgroups
    obtain ⟨⟨hpos, hfan⟩, hgroups⟩ := hgroups
    rw [List.length_cons] at hnumber
    have hgroup := hs.attains_passGroup root h (List.length_pos_iff.mp hpos) hfan hpass (by omega)
    rw [List.map_flatten] at hgroup
    refine hgroup.bind ?_
    rintro _ t ⟨run, ht, hstats⟩
    refine (ih ht hgroups (by omega)).mono ?_ fun _ he => he
    rintro _ u ⟨done', hu, hlength, hstats'⟩
    refine ⟨done', ?_, ?_, ?_⟩
    · rw [List.length_cons, Nat.add_comm groups.length, ← Nat.add_assoc]
      exact hu
    · rw [hlength, List.length_append, List.length_singleton, List.length_cons]
      omega
    · rw [hstats', hstats]
      rfl

/-- Whether runs hold the input in merged parts and no pass from this one on was begun. -/
structure AwaitsPass (spec : SortSpec) (all : List Row) (s : RunSet)
    (runs : List (StoredRun capacity)) (pass : Nat) : Prop where
  lists : s.Lists runs
  parts : StoredRun.AreParts spec all runs
  free : ∀ run ∈ runs, ∀ p g, pass ≤ p → run.name ≠ spec.mergeName p g

theorem AwaitsPass.start (hs : s.AwaitsPass spec all runs pass) :
    InPass spec all { s with runs := [] } [] runs pass 0 where
  folder := hs.lists.folder
  runs_eq := rfl
  parts := hs.parts
  free run hrun p g hlater := hs.free run hrun p g (by omega)

theorem InPass.finish (hs : s.InPass spec all runs [] pass number) (stats : SortStats) :
    AwaitsPass spec all { s with stats } runs (pass + 1) := by
  obtain ⟨hfolder, hruns, hparts, hfree⟩ := hs
  rw [List.append_nil] at hfolder hparts hfree
  exact ⟨⟨hfolder, hruns⟩, hparts, fun run hrun p g hlater => hfree run hrun p g (Or.inl hlater)⟩

/-- Passes go on until one run is left. There are fewer of them than runs. -/
theorem AwaitsPass.attains_mergePasses (root : TempRoot) (h : spec.HasRoom capacity)
    {steps : Nat} (hs : s.AwaitsPass spec all runs pass) (hne : runs ≠ []) (hpass : 1 ≤ pass)
    (hsteps : runs.length ≤ steps + 1) (hbound : pass + runs.length ≤ max 1 all.length + 1) :
    (mergePasses spec capacity (spec.numBuffers - 1) steps pass).Attains root s
      (fun _ s' => ∃ (run : StoredRun capacity) (passes : Nat), s'.AwaitsPass spec all [run] passes ∧
        s'.stats = SortStats.afterPasses (spec.numBuffers - 1) steps pass runs.length s.stats)
      (SortFault spec capacity all) := by
  have hsingle {runs : List (StoredRun capacity)} (hne : runs ≠ []) (hfew : runs.length ≤ 1) :
      ∃ run, runs = [run] := by
    have hpos := List.length_pos_iff.mpr hne
    exact List.length_eq_one_iff.mp (by omega)
  -- Every pass leaves fewer runs, so there are steps enough, and names of merged runs.
  induction steps generalizing s runs pass with
  | zero =>
    obtain ⟨run, rfl⟩ := hsingle hne hsteps
    exact Act.gives_pure.attains ⟨run, pass, hs, rfl⟩
  | succ steps ih =>
    have hcount : s.runs.length = runs.length := by rw [hs.lists.runs_eq, List.length_map]
    by_cases hmany : 1 < runs.length
    · have hbuffers := h.buffers
      have hfan : 0 < spec.numBuffers - 1 := by omega
      have hfewer : (chunks (spec.numBuffers - 1) runs).length < runs.length :=
        length_chunks_lt (by omega) hmany
      have hmore : 0 < (chunks (spec.numBuffers - 1) runs).length := by
        rw [chunks_of_ne_nil hfan hne]
        exact Nat.zero_lt_succ _
      have hstart := hs.start
      rw [← flatten_chunks hfan runs] at hstart
      have hgroups := hstart.attains_mergeGroups root h (fun _ => length_of_mem_chunks hfan)
        (by omega) (by omega)
      refine Act.ensures_get_bind.mpr ?_
      rw [if_pos (by omega), hs.lists.runs_eq]
      refine Act.gives_set.bind_attains ((Act.gives_require (chunks?_of_pos hfan _)).bind_attains ?_)
      rw [chunks_map hfan]
      refine hgroups.bind ?_
      rintro _ t ⟨done, ht, hlength, hstats⟩
      rw [List.length_nil, Nat.zero_add] at hlength
      let passed : RunSet := { t with stats := { t.stats with mergePasses := pass } }
      have hpassed : passed.AwaitsPass spec all done (pass + 1) := ht.finish _
      refine (Act.gives_modify _).bind_attains ?_
      refine (ih hpassed (List.length_pos_iff.mp (by omega)) (by omega) (by omega)
        (by omega)).mono ?_ fun _ he => he
      rintro _ u ⟨run, passes, hu, hstats'⟩
      refine ⟨run, passes, hu, ?_⟩
      rw [hstats', SortStats.afterPasses, if_pos hmany, groupSizes_length hfan, List.length_map,
        hlength, ← hstats]
    · obtain ⟨run, rfl⟩ := hsingle hne (by omega)
      refine Act.ensures_get_bind.mpr ?_
      rw [if_neg (by omega)]
      exact Act.gives_pure.attains ⟨run, pass, hs, rfl⟩

theorem HasGenerated.length_eq (hs : s.HasGenerated spec all runs) :
    runs.length = (inputPieces (spec.numBuffers * capacity) all).length := by
  have hlength := congrArg List.length hs.batches
  rwa [List.length_map, List.length_map] at hlength

theorem HasGenerated.awaitsPass (hc : 0 < capacity) (hs : s.HasGenerated spec all runs) :
    s.AwaitsPass spec all runs 1 := by
  have hrows : runs.map StoredRun.rows = spec.sortedPieces capacity all := by
    calc
      runs.map StoredRun.rows = (runs.map StoredRun.batches).map (·.flatMap (·.rows)) := by
        rw [List.map_map]
        rfl
      _ = _ := by
        rw [hs.batches, List.map_map]
        exact List.map_congr_left fun piece _ => Batch.flatMap_rows_pages hc _
  refine ⟨hs.lists, ⟨?_, ?_⟩, ?_⟩
  · intro run hrun
    have hmem := List.mem_map_of_mem (f := StoredRun.batches) hrun
    rw [hs.batches] at hmem
    obtain ⟨piece, -, hbatches⟩ := List.mem_map.mp hmem
    rw [StoredRun.rows, ← hbatches, sortedPages, Batch.flatMap_rows_pages hc]
  · rw [hrows]
  · intro run hrun p g _
    obtain ⟨n, hname⟩ := hs.names run hrun
    rw [hname]
    exact SortSpec.runName_ne_mergeName n p g

/-- Merging leaves a single run, which holds what merges have made of the input. -/
theorem attains_mergeAll (root : TempRoot) (h : spec.HasRoom capacity)
    (hs : s.HasGenerated spec all runs) :
    (mergeAll spec capacity).Attains root s
      (fun _ s' => ∃ run : StoredRun capacity, s'.Lists [run] ∧ StoredRun.AreParts spec all [run] ∧
        s'.stats = SortStats.afterPasses (spec.numBuffers - 1) runs.length 1 runs.length s.stats)
      (SortFault spec capacity all) := by
  have hlength := length_inputPieces_le h.pos all
  have hcount : s.runs.length = runs.length := by rw [hs.lists.runs_eq, List.length_map]
  rw [← hs.length_eq] at hlength
  have hne : runs ≠ [] := by
    rintro rfl
    exact inputPieces_ne_nil h.pos all (List.length_eq_zero_iff.mp hs.length_eq.symm)
  have hpasses := (hs.awaitsPass h.capacity_pos).attains_mergePasses root h hne (Nat.le_refl 1)
    (Nat.le_succ _) (by omega)
  have hbuffers := h.buffers
  refine (Act.gives_require (fanIn?_of_pos (by omega))).bind_attains (Act.ensures_get_bind.mpr ?_)
  rw [hcount]
  refine hpasses.mono ?_ fun _ he => he
  rintro _ _ ⟨run, _, hs', hstats⟩
  exact ⟨run, hs'.lists, hs'.parts, hstats⟩

theorem exists_gives_openSingle (root : TempRoot) {run : StoredRun capacity} (hs : s.Lists [run]) :
    ∃ reader : RunFile.Reader, reader.HandsOut run.batches ∧
      (openSingle capacity).Gives root s reader s := by
  obtain ⟨⟨folder, hfolder, hholds⟩, hruns⟩ := hs
  obtain ⟨reader, hreader, hbatches⟩ := hholds.exists_ofFile List.mem_cons_self
  refine ⟨reader, hbatches, Act.gives_get_bind.mpr ?_⟩
  rw [hruns]
  exact (gives_workingFolder hfolder).bind (Act.gives_ofExcept hreader)

end RunSet

end PagedQuery
