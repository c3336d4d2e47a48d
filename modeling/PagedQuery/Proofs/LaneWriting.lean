import Mathlib.Data.List.ReduceOption
import PagedQuery.Proofs.LaneMerge
import PagedQuery.Proofs.StoredRuns
import PagedQuery.Proofs.WrittenRuns

/-!
# Writing a merge

A merge writes a row as soon as it is taken and only then reads on, so it has written some rows when it
finds out that a run breaks off. What it writes are the rows of the merge of all that can be read, or
those in front of the error; of these no part is left in the folder.
-/

namespace PagedQuery

namespace Lane

/-- A lane with the rows that its run is still read as. -/
def view (lane : Lane RunFile.RowReader) : Lane RunFile.Stream :=
  ⟨lane.key, lane.row, lane.run, lane.rest.stream⟩

theorem popFirst_view (descending : Bool) (lanes : List (Lane RunFile.RowReader)) :
    popFirst descending (lanes.map view) =
      (popFirst descending lanes).map fun found => (found.1.view, found.2.map view) := by
  have horder (a b : Lane RunFile.RowReader) :
      order descending a.view b.view = order descending a b := rfl
  induction lanes with
  | nil => rfl
  | cons a lanes ih =>
    rw [List.map_cons, popFirst, popFirst, ih]
    cases popFirst descending lanes with
    | none => rfl
    | some found =>
      simp only [Option.map_some, horder]
      split <;> rfl

theorem ofStream?_stream (key : List Nat) (run : Nat) (r : RunFile.RowReader) :
    ofStream? key run r.stream = (advance? key run r).map (·.map view) := by
  have hstream := r.stream_next
  rw [advance?]
  rcases hnext : r.next with ⟨e | _ | row, r'⟩ <;> rw [hnext] at hstream <;> dsimp only at hstream
  · rw [hstream]
    rfl
  · rw [hstream]
    rfl
  · rw [hstream, ofStream?]
    dsimp only
    cases Row.project? row key <;> rfl

theorem ofStreams_stream (key : List Nat) (readers : List RunFile.Reader) :
    ofStreams key (readers.map (·.stream)) = (ofReaders key readers).map (·.map view) := by
  have hall (run : Nat) : ((readers.map (·.stream)).zipIdx run).mapM
      (fun entry : RunFile.Stream × Nat => ofStream? key entry.2 entry.1) =
        ((readers.zipIdx run).mapM fun entry : RunFile.Reader × Nat =>
          advance? key entry.2 (.ofReader entry.1)).map (·.map (·.map view)) := by
    induction readers generalizing run with
    | nil => rfl
    | cons reader readers ih =>
      rw [List.map_cons, List.zipIdx_cons, List.zipIdx_cons, List.mapM_cons, List.mapM_cons, ih,
        ← RunFile.RowReader.stream_ofReader, ofStream?_stream]
      cases advance? key run (.ofReader reader) with
      | error e => rfl
      | ok lane? =>
        cases (readers.zipIdx (run + 1)).mapM fun entry : RunFile.Reader × Nat =>
          advance? key entry.2 (.ofReader entry.1) <;> rfl
  rw [ofStreams, ofReaders, hall 0]
  cases readers.zipIdx.mapM fun entry : RunFile.Reader × Nat =>
      advance? key entry.2 (.ofReader entry.1) with
  | error e => rfl
  | ok lanes? => exact congrArg Except.ok List.reduceOption_map

end Lane

namespace RunSet

variable {spec : SortSpec} {capacity : Nat} {root : TempRoot} {folder : Folder} {file : String}
  {steps : Nat} {lanes : List (Lane RunFile.RowReader)} {rows : List Row}

open RunFile (RowWriter)

/-- A merge writes its rows, or the rows in front of the error that it meets. -/
theorem writeLanes_cases (spec : SortSpec) (file : String) (steps : Nat)
    (lanes : List (Lane RunFile.RowReader)) :
    ∃ taken, taken.Subperm ((lanes.map Lane.view).flatMap Lane.left) ∧
      (Lane.merge spec.key spec.descending steps (lanes.map Lane.view) = .ok taken ∧
        (∀ w, writeLanes spec file steps lanes w = taken.foldlM (RowWriter.take .mergeOutput file) w) ∨
      ∃ e, Lane.merge spec.key spec.descending steps (lanes.map Lane.view) = .error e ∧
        ∀ w, writeLanes spec file steps lanes w =
          taken.foldlM (RowWriter.take .mergeOutput file) w >>= fun _ => Act.abandon e) := by
  induction steps generalizing lanes with
  | zero => exact ⟨[], List.nil_subperm, .inl ⟨rfl, fun _ => rfl⟩⟩
  | succ steps ih =>
    rw [Lane.merge, Lane.popFirst_view]
    cases hpop : Lane.popFirst spec.descending lanes with
    | none => exact ⟨[], List.nil_subperm, .inl ⟨rfl, fun w => by rw [writeLanes, hpop]; rfl⟩⟩
    | some found =>
      obtain ⟨lane, others⟩ := found
      have hleft := (((Lane.popFirst_perm hpop).map Lane.view).flatMap_right Lane.left)
      rw [List.map_cons, List.flatMap_cons] at hleft
      have hview : Lane.ofStream? spec.key lane.view.run lane.view.rest =
        (Lane.advance? spec.key lane.run lane.rest).map (·.map Lane.view) :=
          Lane.ofStream?_stream spec.key lane.run lane.rest
      have hwrite (w : RowWriter) : writeLanes spec file (steps + 1) lanes w =
          w.take .mergeOutput file lane.row >>= fun w =>
            Act.ofAnswer (Lane.advance? spec.key lane.run lane.rest) >>= fun next =>
              writeLanes spec file steps (next.toList ++ others) w := by
        rw [writeLanes, hpop]
      simp only [Option.map_some, hview]
      cases hnext : Lane.advance? spec.key lane.run lane.rest with
      | error e =>
        rw [hnext] at hwrite
        refine ⟨[lane.row], ?_, .inr ⟨e, rfl, fun w => ?_⟩⟩
        · refine (List.Sublist.subperm ?_).trans hleft.symm.subperm
          exact List.singleton_sublist.mpr List.mem_cons_self
        · rw [hwrite, List.foldlM_cons, bind_assoc]
          exact bind_congr fun w => rfl
      | ok next =>
        rw [hnext] at hwrite
        have hrest := (Lane.of_ofStream? (hview.trans (congrArg _ hnext))).1
        have hall : (next.toList ++ others).map Lane.view =
            (next.map Lane.view).toList ++ others.map Lane.view := by
          rw [List.map_append]
          cases next <;> rfl
        obtain ⟨taken, htaken, hcases⟩ := ih (next.toList ++ others)
        rw [hall, List.flatMap_append, hrest] at htaken
        have hsub : (lane.row :: taken).Subperm ((lanes.map Lane.view).flatMap Lane.left) :=
          ((List.subperm_cons _).mpr htaken).trans hleft.symm.subperm
        rw [hall] at hcases
        refine ⟨lane.row :: taken, hsub, ?_⟩
        rcases hcases with ⟨hmerge, htake⟩ | ⟨e, hmerge, htake⟩
        · refine .inl ⟨?_, fun w => ?_⟩
          · simp only [Except.map, bind, Except.bind, hmerge]
            rfl
          · rw [hwrite, List.foldlM_cons]
            exact bind_congr fun w => htake w
        · refine .inr ⟨e, ?_, fun w => ?_⟩
          · simp only [Except.map, bind, Except.bind, hmerge]
          · rw [hwrite, List.foldlM_cons, bind_assoc]
            exact bind_congr fun w => htake w

section Fixes

variable {γ : Type} {g : Folder → γ}

theorem fixes_writeLanes (hg : Folder.Overlooks g file) (spec : SortSpec) (steps : Nat)
    (lanes : List (Lane RunFile.RowReader)) (w : RowWriter) :
    (writeLanes spec file steps lanes w).Fixes g := by
  have hrows (rows : List Row) : (rows.foldlM (RowWriter.take .mergeOutput file) w).Fixes g :=
    Act.fixes_foldlM (RunFile.fixes_take hg .mergeOutput) rows w
  obtain ⟨taken, -, ⟨-, hwrite⟩ | ⟨e, -, hwrite⟩⟩ := writeLanes_cases spec file steps lanes
  · exact hwrite w ▸ hrows taken
  · exact hwrite w ▸ (hrows taken).bind fun _ => Act.fixes_abandon e

theorem fixes_writePages (hg : Folder.Overlooks g file) (spec : SortSpec) (capacity steps : Nat)
    (lanes : List (Lane RunFile.RowReader)) (w : RunFile.Writer) :
    (Act.ofAnswer (Draft.reserve capacity) >>= fun page =>
      writeLanes spec file steps lanes ⟨page, w⟩ >>= RowWriter.finish file).Fixes g :=
  (Act.fixes_ofAnswer _).bind fun page =>
    (fixes_writeLanes hg spec steps lanes ⟨page, w⟩).bind (RunFile.fixes_finishRows hg)

theorem fixes_writeMerged (hg : Folder.Overlooks g file) (spec : SortSpec) (capacity steps : Nat)
    (lanes : List (Lane RunFile.RowReader)) :
    (writeMerged spec capacity file steps lanes).Fixes g :=
  RunFile.fixes_orRemove hg ((RunFile.fixes_create hg).bind
    (fixes_writePages hg spec capacity steps lanes))

end Fixes

/-- A merge that comes to its end is written like a run of its rows on full pages. -/
theorem writeMerged_eq_write (hmemory : fitsMemory capacity Batch.rowRoom = true)
    (hmerge : Lane.merge spec.key spec.descending steps (lanes.map Lane.view) = .ok rows)
    (hcapacity : capacity = 0 → rows = []) :
    writeMerged spec capacity file steps lanes =
      RunFile.write file (Batch.pages capacity rows) := by
  obtain ⟨taken, -, ⟨hmerge', hwrite⟩ | ⟨e, hmerge', -⟩⟩ := writeLanes_cases spec file steps lanes
  · obtain rfl := Except.ok.inj (hmerge.symm.trans hmerge')
    rw [writeMerged, RunFile.write, Draft.reserve_of_fitsMemory hmemory]
    refine congrArg (RunFile.orRemove file) (bind_congr fun writer => ?_)
    rw [← RunFile.writeRows_start .mergeOutput hcapacity, RunFile.writeRows, ← hwrite]
    rfl
  · cases hmerge.symm.trans hmerge'

/-- Why a merge cannot be written: its file cannot be made, there is no memory for a page or no row goes
on one, some of the rows cannot be encoded, or a run breaks off. -/
inductive MergeFault (spec : SortSpec) (capacity : Nat) (folder : Folder) (file : String)
    (steps : Nat) (lanes : List (Lane RunFile.RowReader)) : Failure → Prop
  | name (h : Path.isName file 0 = false) :
      MergeFault spec capacity folder file steps lanes (.error .io)
  | memory (h : fitsMemory capacity Batch.rowRoom = false) :
      MergeFault spec capacity folder file steps lanes .outOfMemory
  | noRoom (h : capacity = 0) (e : Failure) : MergeFault spec capacity folder file steps lanes e
  | encoding {taken : List Row} {e : Error}
      (htaken : taken.Subperm ((lanes.map Lane.view).flatMap Lane.left))
      (h : RunFile.encode (folder.path file) (Batch.pages capacity taken) = .error e) :
      MergeFault spec capacity folder file steps lanes (.error e)
  | merging {e : Failure}
      (h : Lane.merge spec.key spec.descending steps (lanes.map Lane.view) = .error e) :
      MergeFault spec capacity folder file steps lanes e

/-- The rows of a merge are written to its file, or nothing is left of it. -/
theorem ensures_writeMerged {post : Except Failure Unit → Folder → Prop}
    (hok : ∀ rows content,
      Lane.merge spec.key spec.descending steps (lanes.map Lane.view) = .ok rows →
      (capacity = 0 → rows = []) →
      RunFile.encode (folder.path file) (Batch.pages capacity rows) = .ok content →
      post (.ok ()) (folder.put file content))
    (herror : ∀ e, MergeFault spec capacity folder file steps lanes e →
      post (.error e) (folder.remove file)) :
    (writeMerged spec capacity file steps lanes).Ensures root folder post := by
  cases hname : Path.isName file 0 with
  | false =>
    exact (RunFile.failsIn_orRemove_of_name hname).ensures fun _ ht => ht ▸ herror _ (.name hname)
  | true =>
    -- A failure behind the making of the file leaves nothing, whatever was written before.
    have hfails {e : Failure} (he : MergeFault spec capacity folder file steps lanes e)
        (h : (Act.ofAnswer (Draft.reserve capacity) >>= fun page =>
          writeLanes spec file steps lanes ⟨page, .start (folder.path file)⟩ >>=
            RowWriter.finish file).Fails root (folder.put file []) e) :
        (writeMerged spec capacity file steps lanes).Ensures root folder post := by
      have hremove := Folder.overlooks_remove file
      have hwrites := (RunFile.fixes_create hremove).bind
        (fixes_writePages hremove spec capacity steps lanes)
      exact (RunFile.failsIn_orRemove hwrites ((RunFile.gives_create hname).bind_fails h)).ensures
        fun _ ht => ht ▸ herror e he
    cases hmemory : fitsMemory capacity Batch.rowRoom with
    | false =>
      refine hfails (.memory hmemory) (Act.Fails.bind ?_)
      rw [Draft.reserve, Batch.reserve, if_neg (by simp [hmemory])]
      exact rfl
    | true =>
      rw [Draft.reserve_of_fitsMemory hmemory] at hfails
      obtain ⟨taken, htaken, hcases⟩ := writeLanes_cases spec file steps lanes
      have hroom : (capacity = 0 → taken = []) ∨ capacity = 0 ∧ taken ≠ [] := by grind
      rcases hroom with hroom | ⟨rfl, hne⟩
      · rcases hcases with ⟨hmerge, -⟩ | ⟨e, hmerge, hwrite⟩
        · rw [writeMerged_eq_write hmemory hmerge hroom]
          exact RunFile.ensures_write (fun content _ => hok taken content hmerge hroom)
            (fun e _ hencode => herror _ (.encoding htaken hencode))
            fun hname' => by rw [hname] at hname'; cases hname'
        · rcases RunFile.gives_or_fails_takeRows .mergeOutput root hroom with
            ⟨w, t, hgives⟩ | ⟨e', hencode, hfail⟩
          · refine hfails (.merging hmerge) (Act.gives_pure.bind_fails (Act.Fails.bind ?_))
            rw [hwrite]
            exact hgives.bind_fails rfl
          · refine hfails (.encoding htaken hencode) (Act.gives_pure.bind_fails (Act.Fails.bind ?_))
            rw [hwrite]
            exact hfail.bind
      · obtain ⟨e, hfail⟩ := RunFile.fails_takeRows_of_no_room .mergeOutput file
          (.start (folder.path file)) hne root (folder.put file [])
        refine hfails (.noRoom rfl (.error e)) (Act.gives_pure.bind_fails (Act.Fails.bind ?_))
        rcases hcases with ⟨-, hwrite⟩ | ⟨e', -, hwrite⟩
        · rw [hwrite]
          exact hfail
        · rw [hwrite]
          exact hfail.bind

/-- The lanes of readers of which the first row could be read are merged like the streams of these. -/
theorem merge_ofReaders {key : List Nat} (descending : Bool) {readers : List RunFile.Reader}
    (h : Lane.ofReaders key readers = .ok lanes) :
    Lane.ofStreams key (readers.map (·.stream)) = .ok (lanes.map Lane.view) ∧
      Lane.merge key descending (total (·.input.length) readers) (lanes.map Lane.view) =
        mergeStreams key descending (readers.map (·.stream)) := by
  have hlanes : Lane.ofStreams key (readers.map (·.stream)) = .ok (lanes.map Lane.view) := by
    rw [Lane.ofStreams_stream, h]
    rfl
  refine ⟨hlanes, ?_⟩
  obtain ⟨lanes?, hlanes?, hreduce⟩ := exists_of_bind_eq_ok hlanes
  have hlength := (Lane.of_mapM_ofStream? hlanes?).1
  rw [Except.ok.inj hreduce] at hlength
  have hrows : total (fun stream => stream.rows.length) (readers.map (·.stream)) ≤
      total (·.input.length) readers := by
    clear h hlanes hlanes? hreduce hlength
    induction readers with
    | nil => exact Nat.le_refl 0
    | cons reader readers ih =>
      rw [List.map_cons, total_cons, total_cons]
      exact Nat.add_le_add reader.length_stream_le ih
  rw [mergeStreams_of_ofStreams hlanes]
  exact Lane.merge_congr (Nat.le_trans (Nat.le_of_eq hlength) hrows) (Nat.le_of_eq hlength)

end RunSet

end PagedQuery
