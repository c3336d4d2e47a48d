import PagedQuery.Storage.Path

/-!
# Files and working folders

A file is written chunk by chunk: a `Chunk` goes to it from a position on, and a gap that this leaves
is filled with zeros. A `Folder` is a directory that an operator made for itself, with its files by
name.
-/

namespace PagedQuery

/-- Bytes that go to a file from a position on. -/
structure Chunk where
  position : Nat
  bytes : Bytes
  deriving DecidableEq, Repr

/-- The content with a chunk written over it. A chunk without bytes changes nothing. -/
def Chunk.over (chunk : Chunk) (content : Bytes) : Bytes :=
  if chunk.bytes.isEmpty then content
  else
    content.take chunk.position ++ List.replicate (chunk.position - content.length) 0
      ++ chunk.bytes ++ content.drop (chunk.position + chunk.bytes.length)

/-- A working folder. Its name is the part that its owner chose; what sets it apart from others of
that name plays no role. -/
structure Folder where
  name : String
  /-- Whether its name leads nowhere else, so that the folder lies in the directory for working folders,
  and its files in it. -/
  isInside : Bool
  /-- The files of its owner, by the last parts of their names. If the name of the folder is a way out
  of the directory, so are the names that the owner gives to files. -/
  files : List (String × Bytes)
  deriving DecidableEq, Repr

namespace Folder

def path (folder : Folder) (file : String) : String := folder.name ++ "/" ++ file

def read? (folder : Folder) (file : String) : Option Bytes := folder.files.lookup file

/-- The folder with another content of a file, if the file is there. -/
def alter (folder : Folder) (file : String) (f : Bytes → Bytes) : Folder :=
  { folder with
    files := folder.files.map fun entry => if entry.1 == file then (entry.1, f entry.2) else entry }

/-- The folder with a file of this content, in place of another one of that name. -/
def put (folder : Folder) (file : String) (content : Bytes) : Folder :=
  if (folder.read? file).isSome then folder.alter file fun _ => content
  else { folder with files := folder.files ++ [(file, content)] }

def remove (folder : Folder) (file : String) : Folder :=
  { folder with files := folder.files.filter (·.1 != file) }

/-- Makes an empty file, or empties the one of this name. -/
def create? (folder : Folder) (file : String) : Option Folder :=
  if Path.isName file 0 then some (folder.put file []) else none

/-- Writes a chunk to a file. -/
def write (folder : Folder) (file : String) (chunk : Chunk) : Folder :=
  folder.alter file chunk.over

/-- The files that are found in the folder. -/
def contents (folder : Folder) : List (String × Bytes) :=
  if folder.isInside then folder.files else []

end Folder

end PagedQuery
