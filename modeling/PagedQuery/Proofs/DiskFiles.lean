import PagedQuery.Storage.Disk

namespace PagedQuery
namespace Disk

variable {disk disk' : Disk} {name : String} {number : Nat}

/-- Whether two disks have directories at the same places. -/
def SameWays (disk disk' : Disk) : Prop :=
  ∀ place, disk'.lookup? place = some .directory ↔ disk.lookup? place = some .directory

theorem SameWays.enter?_eq (h : SameWays disk disk') (place : Path) (parts : List String) :
    disk'.enter? place parts = disk.enter? place parts := by
  induction parts generalizing place with
  | nil => rfl
  | cons part parts ih => simp only [enter?, h _, ih]

theorem SameWays.locate?_eq (h : SameWays disk disk') (name : String) :
    disk'.locate? name = disk.locate? name := by
  simp only [locate?, h.enter?_eq]

theorem sameWays_setContent (content : Bytes) : SameWays disk (disk.setContent number content) :=
  fun _ => Iff.rfl

theorem fileAt?_setContent (content : Bytes) :
    (disk.setContent number content).fileAt? name = disk.fileAt? name := by
  simp only [fileAt?, find?, (sameWays_setContent _).locate?_eq]
  rfl

theorem fileAt?_write (chunk : Chunk) : (disk.write number chunk).fileAt? name = disk.fileAt? name :=
  fileAt?_setContent _

@[simp]
theorem length_contents_write (chunk : Chunk) :
    (disk.write number chunk).contents.length = disk.contents.length := by
  simp [write, setContent]

theorem content_setContent {content : Bytes} (h : number < disk.contents.length) :
    (disk.setContent number content).content number = content := by
  simp [Disk.content, setContent, h]

theorem content_write {chunk : Chunk} (h : number < disk.contents.length) :
    (disk.write number chunk).content number = chunk.over (disk.content number) :=
  content_setContent h

theorem over_of_position {chunk : Chunk} {content : Bytes} (h : chunk.position = content.length) :
    chunk.over content = content ++ chunk.bytes := by
  rw [Chunk.over]
  split
  · next hempty => rw [List.isEmpty_iff.mp hempty, List.append_nil]
  · rw [h, List.take_length, Nat.sub_self, List.replicate_zero, List.append_nil,
      List.drop_of_length_le (Nat.le_add_right _ _), List.append_nil]

/-- Steps that lead to no entry lead nowhere from the top. -/
theorem eq_nil_of_enter? {parts : List String} {place : Path} (hsteps : parts.all Path.isStep = true)
    (h : disk.enter? [] parts = some place) : place = [] := by
  induction parts with
  | nil => exact (Option.some.inj h).symm
  | cons part parts ih =>
    rw [List.all_cons, Bool.and_eq_true, Path.isStep, Bool.or_eq_true] at hsteps
    rw [enter?] at h
    by_cases hstays : Path.stays part = true
    · rw [if_pos hstays] at h
      exact ih hsteps.2 h
    · rw [if_neg hstays, if_pos (hsteps.1.resolve_left hstays)] at h
      cases h

theorem not_all_isStep_of_locate? {place : Path} (h : disk.locate? name = some place)
    (hplace : disk.lookup? place ≠ some .directory) :
    (Path.isLegal name && (Path.ofString name).all Path.isStep) = false := by
  rw [Bool.eq_false_iff]
  intro hsteps
  rw [Bool.and_eq_true] at hsteps
  have hlast : Path.isStep (Path.last name) = true := by
    rw [Path.last]
    cases hparts : (Path.ofString name).getLast? with
    | none =>
      rw [List.getLast?_eq_none_iff] at hparts
      rw [hparts]
      decide
    | some part =>
      have hmem := List.mem_of_getLast? hparts
      rw [List.getLastD_eq_getLast?, hparts]
      exact List.all_eq_true.mp hsteps.2 part hmem
  rw [locate?] at h
  simp only [hsteps.1, hlast, Bool.not_true, Bool.or_false, if_true] at h
  split at h
  · cases h
  · rw [eq_nil_of_enter? hsteps.2 h] at hplace
    exact hplace rfl

theorem fileAt?_eq_some {place : Path} (hlocate : disk.locate? name = some place)
    (hentry : disk.lookup? place = some (.file number)) : disk.fileAt? name = some number := by
  have hsteps := not_all_isStep_of_locate? hlocate (by rw [hentry]; simp)
  rw [fileAt?, find?, if_neg (by simp [hsteps]), hlocate, Option.bind_some, hentry]

theorem fileAt?_of_new {place : Path} (hlocate : disk.locate? name = some place)
    (hentry : disk.lookup? place = none)
    (hentries : disk'.entries = disk.entries ++ [(place, .file number)]) :
    disk'.fileAt? name = some number := by
  have hplace : place.isEmpty = false := by
    cases h : place.isEmpty with
    | false => rfl
    | true => simp [lookup?, h] at hentry
  have hlookup : disk.entries.lookup place = none := by simpa [lookup?, hplace] using hentry
  have hnew : disk'.lookup? place = some (.file number) := by
    simp [lookup?, hplace, hentries, List.lookup_append, hlookup]
  have hways : SameWays disk disk' := by
    intro other
    by_cases hother : other = place
    · rw [hother, hnew, hentry]
      simp
    · have hsingle : List.lookup other [(place, Entry.file number)] = none :=
        List.lookup_eq_none_iff.mpr (by simp [hother])
      simp only [lookup?, hentries, List.lookup_append, hsingle, Option.or_none]
  exact fileAt?_eq_some ((hways.locate?_eq name).trans hlocate) hnew

theorem create?_spec (h : disk.create? name = some (number, disk')) :
    number < disk'.contents.length ∧ disk'.content number = [] ∧
      disk'.fileAt? name = some number := by
  rw [create?] at h
  cases hlocate : disk.locate? name with
  | none => rw [hlocate] at h; cases h
  | some place =>
    rw [hlocate] at h
    simp only [Option.bind_eq_bind, Option.bind_some] at h
    split at h
    · cases h
    · next file hentry =>
      obtain ⟨rfl, rfl⟩ := Prod.mk.inj (Option.some.inj h)
      have hfile : file < disk.contents.length := by
        rw [lookup?] at hentry
        split at hentry
        · cases hentry
        · obtain ⟨front, back, hentries, -⟩ := List.lookup_eq_some_iff.mp hentry
          exact disk.numbered place file (by simp [hentries])
      refine ⟨by simpa [setContent] using hfile, content_setContent hfile, ?_⟩
      exact fileAt?_eq_some (((sameWays_setContent []).locate?_eq name).trans hlocate) hentry
    · next hentry =>
      obtain ⟨rfl, rfl⟩ := Prod.mk.inj (Option.some.inj h)
      exact ⟨by simp, by simp [Disk.content], fileAt?_of_new hlocate hentry rfl⟩

end Disk
end PagedQuery
