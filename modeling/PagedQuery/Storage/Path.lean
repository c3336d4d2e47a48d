import PagedQuery.Bytes

/-!
# Paths

A `Path` is what stands between the slashes of a file name. A part that is empty or a point leads
nowhere else, two points lead up, and any other part is the name of an entry. Names of entries and
whole paths may only be so long.
-/

namespace PagedQuery

/-- The parts of a path, outermost first. -/
abbrev Path := List String

namespace Path

/-- The pieces of a text between its slashes. There is at least one. -/
def pieces : List Char → List (List Char)
  | [] => [[]]
  | c :: cs =>
    if c = '/' then [] :: pieces cs
    else
      match pieces cs with
      | [] => [[c]]
      | piece :: rest => (c :: piece) :: rest

def ofString (text : String) : Path := (pieces text.toList).map String.ofList

/-- The part behind the last slash. -/
def last (text : String) : String := (ofString text).getLastD ""

/-- Whether a part leads nowhere else. -/
def stays (part : String) : Bool := part == "" || part == "."

def leadsUp (part : String) : Bool := part == ".."

/-- Whether a part leads through directories that are there in any case. -/
def isStep (part : String) : Bool := stays part || leadsUp part

def maxNameBytes : Nat := 255

def maxBytes : Nat := 4095

/-- Whether a text can be the name of an entry with so many bytes behind it. -/
def isName (text : String) (bytesBehind : Nat) : Bool :=
  decide ((utf8Bytes text).length + bytesBehind ≤ maxNameBytes)

/-- Whether a text spells out a path at all. -/
def isLegal (text : String) : Bool :=
  text.toList.all (· != '\x00') && decide ((utf8Bytes text).length ≤ maxBytes)

/-- Whether a text spells out a path from the root of all files. -/
def isAbsolute (text : String) : Bool := text.toList.head? == some '/'

/-- Whether a text spells out the place of an entry of the directory from which it is followed. -/
def staysInside (text : String) : Bool := !isAbsolute text && (ofString text).dropLast.all stays

end Path

end PagedQuery
