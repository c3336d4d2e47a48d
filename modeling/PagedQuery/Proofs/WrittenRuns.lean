import PagedQuery.Operator.MergeSort.Runs
import PagedQuery.Proofs.ActAnswers
import PagedQuery.Proofs.BatchWriting
import PagedQuery.Proofs.DiskFiles
import PagedQuery.Proofs.Paging

/-!
# Runs that are written to a folder

A run reaches its file piece by piece. All the while the file holds the bytes of the batches so far,
but for those that the writer has buffered, and the other files are as they were. A run that was
written completely is its encoding, and nothing is left of one that fails on the way. Writing rows one
by one comes to the same as writing the pages that they fill.
-/

namespace PagedQuery

namespace Folder

variable {file other : String} {folder : Folder}

theorem lookup_cons_eq_ite (other name : String) (bytes : Bytes) (files : List (String × Bytes)) :
    ((name, bytes) :: files).lookup other =
      if other = name then some bytes else files.lookup other := by
  rw [List.lookup_cons]
  by_cases h : other = name
  · rw [if_pos h, beq_iff_eq.mpr h]
  · rw [if_neg h, beq_eq_false_iff_ne.mpr h]

theorem read?_alter (folder : Folder) (file other : String) (f : Bytes → Bytes) :
    (folder.alter file f).read? other =
      if other = file then (folder.read? file).map f else folder.read? other := by
  rcases folder with ⟨name, isInside, files⟩
  simp only [alter, read?]
  induction files with
  | nil => simp
  | cons entry files ih =>
    obtain ⟨name, bytes⟩ := entry
    rw [List.map_cons, lookup_cons_eq_ite file, lookup_cons_eq_ite other name]
    by_cases hname : name = file
    · subst hname
      rw [if_pos (beq_self_eq_true name), lookup_cons_eq_ite, ih, if_pos rfl]
      split <;> rfl
    · rw [if_neg (by simpa using hname), lookup_cons_eq_ite, ih, if_neg (Ne.symm hname)]
      by_cases hother : other = file
      · rw [if_pos hother, if_pos hother, if_neg fun h => hname (h.symm.trans hother)]
      · rw [if_neg hother, if_neg hother]

theorem read?_put (folder : Folder) (file other : String) (content : Bytes) :
    (folder.put file content).read? other =
      if other = file then some content else folder.read? other := by
  rw [put]
  split
  · next hfound =>
    obtain ⟨old, hold⟩ := Option.isSome_iff_exists.mp hfound
    rw [read?_alter, hold]
    rfl
  · next hnone =>
    rw [Option.not_isSome_iff_eq_none, read?] at hnone
    rw [read?, List.lookup_append, lookup_cons_eq_ite, List.lookup_nil]
    split
    · next heq => rw [heq, hnone, Option.none_or]
    · rw [Option.or_none, read?]

theorem map_alter_of_none {f : Bytes → Bytes} {files : List (String × Bytes)}
    (h : files.lookup file = none) :
    files.map (fun entry => if entry.1 == file then (entry.1, f entry.2) else entry) = files := by
  rw [List.lookup_eq_none_iff] at h
  refine (List.map_congr_left fun entry hentry => if_neg fun heq => ?_).trans (List.map_id files)
  have hother := h entry hentry
  rw [beq_iff_eq.mp heq] at hother
  simp at hother

theorem alter_put (folder : Folder) (file : String) (content : Bytes) (f : Bytes → Bytes) :
    (folder.put file content).alter file f = folder.put file (f content) := by
  rw [put, put]
  split
  · simp only [alter, List.map_map]
    congr 1
    refine List.map_congr_left fun entry _ => ?_
    by_cases hentry : entry.1 = file <;> simp [hentry]
  · next hnone =>
    rw [Option.not_isSome_iff_eq_none] at hnone
    simp only [alter, List.map_append, map_alter_of_none hnone]
    simp

theorem remove_alter (folder : Folder) (file : String) (f : Bytes → Bytes) :
    (folder.alter file f).remove file = folder.remove file := by
  simp only [alter, remove, List.filter_map]
  congr 1
  have hsame : (fun entry : String × Bytes => entry.1 != file) ∘
      (fun entry => if entry.1 == file then (entry.1, f entry.2) else entry) = (·.1 != file) := by
    funext entry
    by_cases hentry : entry.1 = file <;> simp [hentry]
  rw [hsame]
  refine (List.map_congr_left fun entry hentry => ?_).trans (List.map_id _)
  have hother : (entry.1 != file) = true := (List.mem_filter.mp hentry).2
  exact if_neg (by simpa using hother)

/-- Whatever was put there, a file that is removed is gone. -/
theorem remove_put (folder : Folder) (file : String) (content : Bytes) :
    (folder.put file content).remove file = folder.remove file := by
  rw [put]
  split
  · exact remove_alter folder file _
  · simp [remove]

/-- Whether what is read off a folder does not depend on a file. -/
structure Overlooks {γ : Type} (g : Folder → γ) (file : String) : Prop where
  alter : ∀ (folder : Folder) (f : Bytes → Bytes), g (folder.alter file f) = g folder
  put : ∀ (folder : Folder) (content : Bytes), g (folder.put file content) = g folder
  remove : ∀ folder : Folder, g (folder.remove file) = g folder

theorem overlooks_remove (file : String) : Overlooks (·.remove file) file where
  alter folder f := remove_alter folder file f
  put folder content := remove_put folder file content
  remove folder := by simp [remove, List.filter_filter]

theorem overlooks_isInside (file : String) : Overlooks Folder.isInside file where
  alter _ _ := rfl
  put folder content := by
    rw [Folder.put]
    split <;> rfl
  remove _ := rfl

end Folder

namespace RunFile

variable {root : TempRoot} {base folder : Folder} {file : String} {w : Writer} {bytes more : Bytes}
  {batch : Batch} {batches : List Batch}

/-- Whether a writer and its file hold some bytes, in a folder that is as given otherwise. -/
structure InFile (base : Folder) (file : String) (bytes : Bytes) (w : Writer)
    (folder : Folder) : Prop where
  path_eq : w.path = base.path file
  holds : ∃ content, folder = base.put file content ∧ w.position = content.length ∧
    content ++ w.buffered = bytes

namespace InFile

theorem deliver {out : Writer × Chunk} (h : InFile base file bytes w folder)
    (hout : Passes w more out) :
    InFile base file (bytes ++ more) out.1 (folder.write file out.2) := by
  obtain ⟨hpath, content, rfl, hposition, rfl⟩ := h
  refine ⟨hout.path_eq.trans hpath, content ++ out.2.bytes, ?_, ?_, ?_⟩
  · rw [Folder.write, Folder.alter_put, Disk.over_of_position (hout.position_eq.trans hposition)]
  · rw [hout.moves, hposition, List.length_append]
  · rw [List.append_assoc, hout.keeps, List.append_assoc]

theorem start (base : Folder) (file : String) :
    InFile base file header (.start (base.path file)) (base.put file []) :=
  ⟨rfl, [], rfl, rfl, rfl⟩

theorem gives_writeBatch (root : TempRoot) (h : InFile base file bytes w folder)
    (hmore : encodeBatch (base.path file) batch = .ok more) :
    ∃ w' folder', (writeBatch file w batch).Gives root folder w' folder' ∧
      InFile base file (bytes ++ more) w' folder' := by
  rw [← h.path_eq] at hmore
  obtain ⟨chunk, w', hwrite, hpasses⟩ := Writer.writeBatch_of_encodeBatch hmore
  refine ⟨w', folder.write file chunk, ?_, h.deliver hpasses⟩
  rw [writeBatch, hwrite]
  exact (Act.gives_modify _).bind Act.gives_pure

theorem fails_writeBatch {e : Error} (h : InFile base file bytes w folder)
    (he : encodeBatch (base.path file) batch = .error e) :
    (writeBatch file w batch).Fails root folder (.error e) := by
  rw [← h.path_eq] at he
  obtain ⟨scratch, hwrite⟩ := Writer.writeBatch_of_error he
  rw [writeBatch, hwrite]
  exact rfl

theorem gives_writeBatches {bodies : List Bytes} (h : InFile base file bytes w folder)
    (hbodies : batches.mapM (encodeBatch (base.path file)) = .ok bodies) :
    ∃ w' folder', (batches.foldlM (writeBatch file) w).Gives root folder w' folder' ∧
      InFile base file (bytes ++ bodies.flatten) w' folder' := by
  induction batches generalizing w folder bytes bodies with
  | nil =>
    obtain rfl := Except.ok.inj hbodies
    exact ⟨w, folder, Act.gives_pure, by simpa using h⟩
  | cons batch batches ih =>
    rw [List.mapM_cons] at hbodies
    obtain ⟨body, hbody, hbodies⟩ := exists_of_bind_eq_ok hbodies
    obtain ⟨rest, hrest, hbodies⟩ := exists_of_bind_eq_ok hbodies
    obtain rfl := Except.ok.inj hbodies
    obtain ⟨w₁, folder₁, hfirst, h₁⟩ := h.gives_writeBatch root hbody
    obtain ⟨w₂, folder₂, hothers, h₂⟩ := ih h₁ hrest
    rw [List.append_assoc, ← List.flatten_cons] at h₂
    exact ⟨w₂, folder₂, hfirst.bind hothers, h₂⟩

theorem fails_writeBatches {e : Error} (h : InFile base file bytes w folder)
    (he : batches.mapM (encodeBatch (base.path file)) = .error e) :
    (batches.foldlM (writeBatch file) w).Fails root folder (.error e) := by
  induction batches generalizing w folder bytes with
  | nil => cases he
  | cons batch batches ih =>
    rw [List.mapM_cons] at he
    cases hbody : encodeBatch (base.path file) batch with
    | error e' =>
      rw [hbody] at he
      obtain rfl : e' = e := Except.error.inj he
      exact (h.fails_writeBatch hbody).bind
    | ok body =>
      obtain ⟨w₁, folder₁, hfirst, h₁⟩ := h.gives_writeBatch root hbody
      have hrest : batches.mapM (encodeBatch (base.path file)) = .error e := by
        rw [hbody] at he
        cases hothers : batches.mapM (encodeBatch (base.path file)) with
        | error e' =>
          rw [hothers] at he
          exact he
        | ok bodies => rw [hothers] at he; cases he
      exact hfirst.bind_fails (ih h₁ hrest)

/-- A run that is finished is in its file to the last byte. -/
theorem gives_finish (h : InFile base file bytes w folder) :
    (finish file w).Gives root folder () (base.put file (bytes ++ terminator)) := by
  have hlast := (h.deliver (passes_put w terminator)).deliver (passes_flush _)
  obtain ⟨-, content, hcontent, -, hbytes⟩ := hlast
  have hall : content = bytes ++ terminator := by
    rw [List.append_nil (bytes ++ terminator)] at hbytes
    rw [← hbytes]
    exact (List.append_nil content).symm
  rw [← hall, ← hcontent]
  exact ((Act.gives_modify _).bind Act.gives_pure).bind
    (((Act.gives_modify _).bind Act.gives_pure).bind Act.gives_pure)

end InFile

section Fixes

/-! Writing a run changes nothing that does not depend on its file. -/

variable {γ : Type} {g : Folder → γ}

theorem fixes_create (hg : Folder.Overlooks g file) : (create file).Fixes g := by
  intro root folder
  refine Act.ensures_get_bind.mpr ?_
  rw [create?, Folder.create?]
  split
  · next made hmade =>
    split at hmade
    · cases hmade
      exact hg.put folder []
    · cases hmade
  · exact rfl

theorem fixes_deliver (hg : Folder.Overlooks g file) (out : Writer × Chunk) :
    (deliver file out).Fixes g :=
  (Act.fixes_modify fun folder => hg.alter folder out.2.over).bind fun _ => Act.fixes_pure _

theorem fixes_writeBatch (hg : Folder.Overlooks g file) (w : Writer) (batch : Batch) :
    (writeBatch file w batch).Fixes g := by
  rw [writeBatch]
  split
  · exact fixes_deliver hg _
  · exact Act.fixes_abandon _

theorem fixes_finish (hg : Folder.Overlooks g file) (w : Writer) : (finish file w).Fixes g :=
  (fixes_deliver hg _).bind fun _ => (fixes_deliver hg _).bind fun _ => Act.fixes_pure ()

theorem fixes_take (hg : Folder.Overlooks g file) (role : PageRole) (w : RowWriter) (row : Row) :
    (w.take role file row).Fixes g := by
  refine (Act.fixes_ofExcept _).bind ?_
  rintro ⟨_ | full, page⟩
  · exact Act.fixes_pure _
  · exact (fixes_writeBatch hg w.writer full).bind fun _ => Act.fixes_pure _

theorem fixes_finishRows (hg : Folder.Overlooks g file) (w : RowWriter) : (w.finish file).Fixes g :=
  (fixes_writeBatch hg w.writer w.page.batch).bind fun _ => fixes_finish hg _

theorem fixes_orRemove {α : Type} {x : Act Folder α} (hg : Folder.Overlooks g file) (hx : x.Fixes g) :
    (orRemove file x).Fixes g := by
  refine hx.attempt.bind ?_
  rintro (e | a)
  · exact (Act.fixes_modify hg.remove).bind fun _ => Act.fixes_abandon e
  · exact Act.fixes_pure a

theorem fixes_write (hg : Folder.Overlooks g file) (batches : List Batch) :
    (write file batches).Fixes g :=
  fixes_orRemove hg ((fixes_create hg).bind fun w =>
    (Act.fixes_foldlM (fixes_writeBatch hg) batches w).bind (fixes_finish hg))

end Fixes

theorem gives_create (hname : Path.isName file 0 = true) :
    (create file).Gives root folder (.start (folder.path file)) (folder.put file []) := by
  have hmade : create? folder file = some (.start (folder.path file), folder.put file []) := by
    rw [create?, Folder.create?, if_pos hname]
    rfl
  refine Act.gives_get_bind.mpr ?_
  rw [hmade]
  exact Act.gives_set.bind Act.gives_pure

theorem failsIn_create (hname : Path.isName file 0 = false) :
    (create file).FailsIn root folder (.error .io) (· = folder) := by
  have hnone : create? folder file = none := by
    rw [create?, Folder.create?, if_neg (by simp [hname])]
    rfl
  refine Act.ensures_get_bind.mpr ?_
  rw [hnone]
  exact ⟨rfl, rfl⟩

section OrRemove

variable {α : Type} {x : Writer → Act Folder α} {e : Failure}

theorem gives_orRemove {a : α} (hname : Path.isName file 0 = true)
    (h : (x (.start (folder.path file))).Gives root (folder.put file []) a base) :
    (orRemove file (create file >>= x)).Gives root folder a base :=
  ((gives_create hname).bind h).attempt.bind Act.gives_pure

theorem fails_orRemove {y : Act Folder α} (h : y.Fails root folder e) :
    (orRemove file y).Fails root folder e := by
  obtain ⟨t, hattempt⟩ := h.exists_attempt
  exact hattempt.bind_ensures rfl

/-- Nothing is left of a file that could not be written to its end. -/
theorem failsIn_orRemove {y : Act Folder α} (hy : y.Fixes (·.remove file))
    (h : y.Fails root folder e) : (orRemove file y).FailsIn root folder e (· = folder.remove file) := by
  have hstays : y.FailsIn root folder e (·.remove file = folder.remove file) := ⟨h, hy root folder⟩
  obtain ⟨t, ht, hattempt⟩ := hstays.exists_attempt
  exact hattempt.bind_ensures ⟨rfl, ht⟩

end OrRemove

section Batches

variable {content : Bytes}

theorem gives_writeBatches_finish (root : TempRoot) (h : encode (base.path file) batches = .ok content) :
    (batches.foldlM (writeBatch file) (.start (base.path file)) >>= finish file).Gives root
      (base.put file []) () (base.put file content) := by
  obtain ⟨bodies, hbodies, hcontent⟩ := exists_of_bind_eq_ok h
  obtain rfl := Except.ok.inj hcontent
  obtain ⟨w, written, hwrite, hat⟩ := (InFile.start base file).gives_writeBatches hbodies
  exact hwrite.bind hat.gives_finish

theorem fails_writeBatches_finish (root : TempRoot) {e : Error}
    (h : encode (base.path file) batches = .error e) :
    (batches.foldlM (writeBatch file) (.start (base.path file)) >>= finish file).Fails root
      (base.put file []) (.error e) := by
  have hbodies : batches.mapM (encodeBatch (base.path file)) = .error e := by
    rw [encode] at h
    cases hbodies : batches.mapM (encodeBatch (base.path file)) with
    | ok bodies => rw [hbodies] at h; cases h
    | error e' =>
      rw [hbodies] at h
      exact congrArg Except.error (Except.error.inj h)
  exact ((InFile.start base file).fails_writeBatches hbodies).bind

end Batches

theorem gives_write {content : Bytes} (hname : Path.isName file 0 = true)
    (h : encode (folder.path file) batches = .ok content) :
    (write file batches).Gives root folder () (folder.put file content) :=
  gives_orRemove hname (gives_writeBatches_finish root h)

theorem failsIn_write {e : Error} (hname : Path.isName file 0 = true)
    (h : encode (folder.path file) batches = .error e) :
    (write file batches).FailsIn root folder (.error e) (· = folder.remove file) := by
  have hwrites : (create file >>= fun w => batches.foldlM (writeBatch file) w >>= finish file).Fixes
      (·.remove file) :=
    have hremove := Folder.overlooks_remove file
    (fixes_create hremove).bind fun w =>
      (Act.fixes_foldlM (fixes_writeBatch hremove) batches w).bind (fixes_finish hremove)
  exact failsIn_orRemove hwrites ((gives_create hname).bind_fails (fails_writeBatches_finish root h))

theorem failsIn_orRemove_of_name {α : Type} {x : Writer → Act Folder α}
    (hname : Path.isName file 0 = false) :
    (orRemove file (create file >>= x)).FailsIn root folder (.error .io) (· = folder.remove file) := by
  obtain ⟨t, rfl, hattempt⟩ := (failsIn_create hname).bind.exists_attempt
  exact hattempt.bind_ensures ⟨rfl, rfl⟩

/-- What writing a run comes to: its encoding is put into the folder, or a file of its name is removed
there. -/
theorem ensures_write {post : Except Failure Unit → Folder → Prop}
    (hok : ∀ content, Path.isName file 0 = true → encode (folder.path file) batches = .ok content →
      post (.ok ()) (folder.put file content))
    (herror : ∀ e, Path.isName file 0 = true → encode (folder.path file) batches = .error e →
      post (.error (.error e)) (folder.remove file))
    (hillegal : Path.isName file 0 = false → post (.error (.error .io)) (folder.remove file)) :
    (write file batches).Ensures root folder post := by
  cases hname : Path.isName file 0 with
  | false => exact (failsIn_orRemove_of_name hname).ensures fun _ ht => ht ▸ hillegal hname
  | true =>
    cases hencode : encode (folder.path file) batches with
    | error e => exact (failsIn_write hname hencode).ensures fun _ ht => ht ▸ herror e hname hencode
    | ok content => exact (gives_write hname hencode).ensures (hok content hname hencode)

theorem writeBatch_of_isEmpty (file : String) (w : Writer) (h : batch.isEmpty = true) :
    writeBatch file w batch = pure w := by
  have hwrite : w.writeBatch batch = (.ok ⟨w.position, []⟩, w) := if_pos h
  rw [writeBatch, hwrite]
  apply Act.eq_of_run
  intro root folder
  have hsame : folder.write file ⟨w.position, []⟩ = folder := by
    rw [Folder.write, Folder.alter]
    have hfiles := List.map_id folder.files
    rw [← hfiles]
    simp [Chunk.over]
  change (⟨_, folder.write file ⟨w.position, []⟩, _⟩ : Outcome Folder Writer) = _
  rw [hsame]
  rfl

section Rows

variable {capacity : Nat} {role : PageRole} {page : Draft} {rest rows : List Row}

/-- Writes rows one by one and ends the run. -/
def writeRows (role : PageRole) (file : String) (rows : List Row) (w : RowWriter) :
    Act Folder Unit := do
  let w ← rows.foldlM (RowWriter.take role file) w
  w.finish file

theorem take_of_room (role : PageRole) (file : String) (hpage : page.batch = ⟨capacity, rest⟩)
    (hroom : rest.length + 1 < capacity) (w : Writer) (row : Row) :
    ∃ page' : Draft, page'.batch = ⟨capacity, rest ++ [row]⟩ ∧
      RowWriter.take role file ⟨page, w⟩ row = pure ⟨page', w⟩ := by
  obtain ⟨page', hfill, hpage'⟩ := fill_of_room role hpage hroom row
  refine ⟨page', hpage', ?_⟩
  rw [RowWriter.take, hfill]
  rfl

theorem take_of_last (file : String) (hpage : page.batch = ⟨capacity, rest⟩)
    (hlast : rest.length + 1 = capacity) (w : Writer) (row : Row) :
    RowWriter.take role file ⟨page, w⟩ row =
      writeBatch file w ⟨capacity, rest ++ [row]⟩ >>= fun w' => pure ⟨.empty capacity, w'⟩ := by
  rw [RowWriter.take, fill_of_last hpage hlast]
  rfl

/-- Rows that are written one by one are written on the pages that they fill. -/
theorem writeRows_eq (role : PageRole) (file : String) (hc : 0 < capacity)
    (hpage : page.batch = ⟨capacity, rest⟩) (hrest : rest.length < capacity) (w : Writer) :
    writeRows role file rows ⟨page, w⟩ =
      (Batch.pages capacity (rest ++ rows)).foldlM (writeBatch file) w >>= finish file := by
  induction rows generalizing page rest w with
  | nil =>
    rw [List.append_nil, writeRows, List.foldlM_nil, pure_bind, RowWriter.finish, hpage]
    cases rest with
    | nil =>
      rw [writeBatch_of_isEmpty file w rfl, pure_bind]
      exact (pure_bind w (finish file)).symm
    | cons row rest =>
      rw [Batch.pages, chunks_of_length_le hc (List.cons_ne_nil row rest) (Nat.le_of_lt hrest),
        List.map_singleton, List.foldlM_cons, bind_assoc]
      simp only [List.foldlM_nil, pure_bind]
  | cons row rows ih =>
    have hsplit : rest ++ row :: rows = rest ++ [row] ++ rows := List.append_cons rest row rows
    have hlength : (rest ++ [row]).length = rest.length + 1 := List.length_append
    rw [hsplit, writeRows, List.foldlM_cons, bind_assoc]
    rcases Nat.lt_or_eq_of_le hrest with hroom | hlast
    · obtain ⟨page', hpage', htake⟩ := take_of_room role file hpage hroom w row
      rw [htake, pure_bind, ← ih hpage' (by rwa [hlength])]
      rfl
    · rw [take_of_last file hpage hlast, Batch.pages_cons hc (hlength.trans hlast),
        List.foldlM_cons, bind_assoc, bind_assoc]
      refine bind_congr fun w' => ?_
      rw [pure_bind]
      exact ih (Draft.batch_empty capacity) hc w'

/-- Rows are written as the run of the pages that they fill, if there is room for rows at all. -/
theorem writeRows_start (role : PageRole) (hcapacity : capacity = 0 → rows = []) :
    writeRows role file rows ⟨.empty capacity, w⟩ =
      (Batch.pages capacity rows).foldlM (writeBatch file) w >>= finish file := by
  rcases Nat.eq_zero_or_pos capacity with hzero | hpos
  · rw [hcapacity hzero, writeRows, List.foldlM_nil, pure_bind, RowWriter.finish,
      writeBatch_of_isEmpty file w rfl, pure_bind]
    exact (pure_bind w (finish file)).symm
  · exact writeRows_eq role file hpos (Draft.batch_empty capacity) hpos w

/-- Taking rows of which the pages cannot all be encoded fails, or ends before the page that cannot
be. -/
theorem gives_or_fails_takeRows (role : PageRole) (root : TempRoot)
    (hcapacity : capacity = 0 → rows = []) :
    (∃ w t, (rows.foldlM (RowWriter.take role file)
      ⟨.empty capacity, .start (base.path file)⟩).Gives root (base.put file []) w t) ∨
    ∃ e, encode (base.path file) (Batch.pages capacity rows) = .error e ∧
      (rows.foldlM (RowWriter.take role file)
        ⟨.empty capacity, .start (base.path file)⟩).Fails root (base.put file []) (.error e) := by
  rcases Act.gives_or_fails (rows.foldlM (RowWriter.take role file)
    ⟨.empty capacity, .start (base.path file)⟩) root (base.put file []) with hgives | ⟨e, hfails⟩
  · exact .inl hgives
  · have hwrite : (writeRows role file rows
        ⟨.empty capacity, .start (base.path file)⟩).Fails root (base.put file []) e := hfails.bind
    rw [writeRows_start role hcapacity] at hwrite
    cases hencode : encode (base.path file) (Batch.pages capacity rows) with
    | ok content => exact absurd hwrite (gives_writeBatches_finish root hencode).not_fails
    | error e' =>
      have hfails' := fails_writeBatches_finish root hencode
      obtain rfl : e = .error e' := Except.error.inj (hwrite.symm.trans hfails')
      exact .inr ⟨e', rfl, hfails⟩

theorem fails_takeRows_of_no_room (role : PageRole) (file : String) (w : Writer)
    (hrows : rows ≠ []) (root : TempRoot) (folder : Folder) :
    ∃ e : Error, (rows.foldlM (RowWriter.take role file) ⟨.empty 0, w⟩).Fails root folder (.error e) := by
  cases rows with
  | nil => exact absurd rfl hrows
  | cons row rows =>
    have hfill : (Draft.empty 0).fill role row = .error (.pageOverflow role) := rfl
    have htake : (RowWriter.take role file ⟨.empty 0, w⟩ row).Fails root folder
        (.error (.pageOverflow role)) := by
      rw [RowWriter.take, hfill]
      exact rfl
    rw [List.foldlM_cons]
    exact ⟨_, htake.bind⟩

end Rows

section InFolder

variable {α : Type} {x : Act Folder α}

theorem ensures_inFolder {post : Except Failure α → Option Folder → Prop} :
    (inFolder x).Ensures root (some folder) post ↔
      x.Ensures root folder fun answer t => post answer (some t) := Iff.rfl

end InFolder

end RunFile

namespace RunSet

variable {α : Type} {root : TempRoot} {s : RunSet} {folder : Folder} {file : String}
  {x : Act Folder α}

theorem ensures_onFolder {post : Except Failure α → RunSet → Prop} (hfolder : s.folder = some folder)
    (h : x.Ensures root folder fun answer t => post answer { s with folder := some t }) :
    (onFolder x).Ensures root s post := by
  refine Act.ensures_within.mpr ?_
  rw [hfolder]
  exact RunFile.ensures_inFolder.mpr h

theorem ensures_write {batches : List Batch} {post : Except Failure Unit → RunSet → Prop}
    (hfolder : s.folder = some folder)
    (hok : ∀ content, Path.isName file 0 = true →
      RunFile.encode (folder.path file) batches = .ok content →
      post (.ok ()) { s with folder := some (folder.put file content) })
    (herror : ∀ e, Path.isName file 0 = true →
      RunFile.encode (folder.path file) batches = .error e →
      post (.error (.error e)) { s with folder := some (folder.remove file) })
    (hillegal : Path.isName file 0 = false →
      post (.error (.error .io)) { s with folder := some (folder.remove file) }) :
    (write file batches).Ensures root s post :=
  ensures_onFolder hfolder (RunFile.ensures_write hok herror hillegal)

end RunSet

end PagedQuery
