import PagedQuery.Storage.Folder

/-!
# The directory for working folders

The `TempRoot` is the place where working folders are made; it may be missing. A look into it shows
the folders in it and the files of each with their sizes, all in the order of their names.
-/

namespace PagedQuery

/-- The directory in which working folders are made. -/
structure TempRoot where
  isPresent : Bool
  deriving DecidableEq, Repr

namespace TempRoot

/-- How many characters are put behind the name of a folder, to set it apart from others. -/
def suffixLength : Nat := 6

/-- Makes a working folder. Its name may be a path, if that leads through the directory itself and
those above it only: nothing is known of any others. -/
def makeFolder? (root : TempRoot) (name : String) : Option Folder :=
  if root.isPresent && Path.isLegal name && Path.isName (Path.last name) suffixLength
      && (Path.ofString name).dropLast.all Path.isStep then
    some ⟨Path.last name, Path.staysInside name, []⟩
  else
    none

/-- A working folder is empty at first, and lies where its name leads. -/
theorem eq_of_makeFolder? {root : TempRoot} {name : String} {folder : Folder}
    (h : root.makeFolder? name = some folder) :
    folder = ⟨Path.last name, Path.staysInside name, []⟩ := by
  rw [makeFolder?] at h
  split at h
  · exact (Option.some.inj h).symm
  · cases h

theorem files_of_makeFolder? {root : TempRoot} {name : String} {folder : Folder}
    (h : root.makeFolder? name = some folder) : folder.files = [] := by
  rw [eq_of_makeFolder? h]

end TempRoot

/-- Files by name, with their sizes. -/
abbrev Listing := List (String × Nat)

namespace Listing

def order : Listing → Listing → Ordering
  | [], [] => .eq
  | [], _ :: _ => .lt
  | _ :: _, [] => .gt
  | a :: as, b :: bs =>
    ((Ord.compare a.1 b.1).then (Ord.compare a.2 b.2)).then (order as bs)

end Listing

/-- The files of a folder in the order of their names. -/
def Folder.listing (folder : Folder) : Listing :=
  (folder.contents.map fun (name, content) => (name, content.length)).mergeSort
    fun a b => Ord.compare a.1 b.1 != .gt

/-- How many of the folders lie in the directory for working folders. -/
def countFolders (folders : List Folder) : Nat := (folders.filter (·.isInside)).length

/-- The folders in the directory for working folders in the order of their names; of one name, in
the order of their listings. -/
def listFolders (folders : List Folder) : List (String × Listing) :=
  ((folders.filter (·.isInside)).map fun folder => (folder.name, folder.listing)).mergeSort
    fun a b => (Ord.compare a.1 b.1).then (Listing.order a.2 b.2) != .gt

end PagedQuery
