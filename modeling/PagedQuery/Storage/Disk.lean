import PagedQuery.Storage.Folder

/-!
# Disks

A `Disk` is a tree of directories with files in them. A file is known by a number, to which names
lead: whoever has opened a file goes on with it also when its name is gone or leads to another one.
Contents are written from a position on, and a gap that this leaves is filled with zeros.
-/

namespace PagedQuery

/-- What a name leads to. -/
inductive Entry where
  | file (number : Nat)
  | directory
  deriving DecidableEq, Repr

/-- Directories and files. -/
structure Disk where
  /-- The entries by the way that leads to them from the top. -/
  entries : List (Path × Entry)
  contents : List Bytes
  /-- Names lead only to files that there are. -/
  numbered : ∀ place number, (place, Entry.file number) ∈ entries → number < contents.length
  deriving DecidableEq, Repr

namespace Disk

def empty : Disk := ⟨[], [], fun _ _ h => absurd h List.not_mem_nil⟩

/-- The entry at a place. The top itself is a directory. -/
def lookup? (disk : Disk) (place : Path) : Option Entry :=
  if place.isEmpty then some .directory else disk.entries.lookup place

/-- The directory reached from another one by going through the given parts. -/
def enter? (disk : Disk) : Path → List String → Option Path
  | place, [] => some place
  | place, part :: parts =>
    if Path.stays part then disk.enter? place parts
    else if Path.leadsUp part then
      if place.isEmpty then none else disk.enter? place.dropLast parts
    else if disk.lookup? (place ++ [part]) = some .directory then
      disk.enter? (place ++ [part]) parts
    else
      none

/-- The place that a name stands for. The directories on the way have to exist, an entry at the
place need not. Nothing is known of what lies above the top. -/
def locate? (disk : Disk) (name : String) : Option Path := do
  let parts := Path.ofString name
  let last := Path.last name
  if Path.isAbsolute name || !Path.isLegal name then none
  else if Path.isStep last then disk.enter? [] parts
  else if Path.isName last 0 then
    let place ← disk.enter? [] parts.dropLast
    pure (place ++ [last])
  else
    none

/-- What a name leads to. Whatever lies above the top, there is a directory at each step up. -/
def find? (disk : Disk) (name : String) : Option Entry :=
  if Path.isLegal name && (Path.ofString name).all Path.isStep then some .directory
  else (disk.locate? name).bind disk.lookup?

def fileAt? (disk : Disk) (name : String) : Option Nat :=
  match disk.find? name with
  | some (.file number) => some number
  | _ => none

def content (disk : Disk) (number : Nat) : Bytes := (disk.contents[number]?).getD []

def read? (disk : Disk) (name : String) : Option Bytes := (disk.fileAt? name).map disk.content

def setContent (disk : Disk) (number : Nat) (content : Bytes) : Disk :=
  ⟨disk.entries, disk.contents.set number content, fun place number h => by
    rw [List.length_set]
    exact disk.numbered place number h⟩

def write (disk : Disk) (number : Nat) (chunk : Chunk) : Disk :=
  disk.setContent number (chunk.over (disk.content number))

/-- Makes an empty file, or empties the one that the name leads to, and answers its number. -/
def create? (disk : Disk) (name : String) : Option (Nat × Disk) := do
  let place ← disk.locate? name
  match disk.lookup? place with
  | some .directory => none
  | some (.file number) => some (number, disk.setContent number [])
  | none =>
    let number := disk.contents.length
    some (number, ⟨disk.entries ++ [(place, .file number)], disk.contents ++ [[]], by
      intro other file h
      rw [List.length_append, List.length_singleton]
      rcases List.mem_append.mp h with hold | hnew
      · exact Nat.lt_succ_of_lt (disk.numbered other file hold)
      · obtain ⟨-, rfl⟩ : other = place ∧ file = disk.contents.length := by simpa using hnew
        exact Nat.lt_succ_self _⟩)

/-- Makes a directory where there is no entry yet. Slashes at the end of its name play no role. -/
def makeDirectory? (disk : Disk) (name : String) : Option Disk := do
  let place ← disk.locate? (String.ofList (name.toList.reverse.dropWhile (· == '/')).reverse)
  if (disk.lookup? place).isSome then none
  else
    some ⟨disk.entries ++ [(place, .directory)], disk.contents, by
      intro other file h
      exact disk.numbered other file (by simpa using h)⟩

def remove (disk : Disk) (name : String) : Disk :=
  match disk.locate? name with
  | none => disk
  | some place =>
    match disk.lookup? place with
    | some (.file _) => ⟨disk.entries.filter (·.1 != place), disk.contents, fun other file h =>
        disk.numbered other file (List.mem_filter.mp h).1⟩
    | _ => disk

/-- Cuts bytes off the end of a file. -/
def truncate (disk : Disk) (number : Nat) (dropped : Nat) : Disk :=
  let content := disk.content number
  disk.setContent number (content.take (content.length - dropped))

end Disk

end PagedQuery
