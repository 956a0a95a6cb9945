/-!
# Paths and disks

A path keeps the segments between its slashes as they are written, so that it can be shown again.
An empty segment and `.` stay in place and `..` leads one directory out; each of them needs a
directory to start from, as a name does.

A `Disk` holds directories and files under the names that lead to them from its top. What is around
the disk is not known, and a path that leads out of it leads nowhere. Nor does a path lead anywhere
that is too long when written with the path to the top before it.
-/

set_option autoImplicit false

namespace ScriptTaint

/-- A path as written. -/
structure Path where
  segments : List String
deriving DecidableEq, Repr

namespace Path

def ofString (s : String) : Path := ⟨s.splitOn "/"⟩

def toString (p : Path) : String := "/".intercalate p.segments

/-- A segment that stays in place. -/
def isIdle (segment : String) : Bool := segment == "" || segment == "."

/-- The path does not start at the top of the disk. -/
def isAbsolute (p : Path) : Bool := p.segments.head? == some "" && 2 ≤ p.segments.length

/-- The path without the idle segments at its start. -/
def shown (p : Path) : String := "/".intercalate (p.segments.dropWhile isIdle)

/-- The path to a name in the directory that the path leads to. -/
def child (p : Path) (name : String) : Path :=
  ⟨(if p.segments.getLast? == some "" then p.segments.dropLast else p.segments) ++ [name]⟩

/-- The beginnings of a path that end in a segment that is not idle, and last the empty one. The
segments come from the end. -/
def beginnings : List String → List Path
  | [] => [⟨[]⟩]
  | s :: outer =>
    if isIdle s then beginnings outer else ⟨(s :: outer).reverse⟩ :: beginnings outer

/-- The paths that are left when segments are taken off the end, one by one; idle ones go with the
segment before them. The top of the disk has none. -/
def ancestors (p : Path) : List Path :=
  match p.segments.reverse.dropWhile isIdle with
  | [] => []
  | _ :: outer => beginnings outer

end Path

/-- The names that lead to a place from the top of the disk. -/
abbrev Place := List String

structure Disk where
  /-- The path to the top of the disk from outside. -/
  top : String := ""
  directories : List Place := []
  /-- What was written to files, the latest first. -/
  files : List (Place × ByteArray) := []

namespace Disk

def isDirectory (d : Disk) (here : Place) : Bool := here.isEmpty || d.directories.contains here

def file? (d : Disk) (here : Place) : Option ByteArray := d.files.lookup here

/-- The bytes that a path from outside of the disk may have. -/
def maxPathBytes : Nat := 4095

/-- Whether a path is short enough to be followed. Each segment has a slash before it. -/
def reaches (d : Disk) (p : Path) : Bool :=
  p.segments.foldl (fun n s => n + 1 + s.utf8ByteSize) d.top.utf8ByteSize ≤ maxPathBytes

/-- Follows one segment. -/
def step? (d : Disk) (here : Place) (segment : String) : Option Place :=
  if !d.isDirectory here then none
  else if Path.isIdle segment then some here
  else if segment == ".." then if here.isEmpty then none else some here.dropLast
  else some (here ++ [segment])

/-- Where a path leads. There may be nothing at that place. -/
def place? (d : Disk) (p : Path) : Option Place :=
  if p.isAbsolute || !d.reaches p then none else p.segments.foldlM d.step? []

def isThere (d : Disk) (p : Path) : Bool :=
  (d.place? p).any fun here => d.isDirectory here || (d.file? here).isSome

/-- The text of a file. -/
def text? (d : Disk) (p : Path) : Option String :=
  ((d.place? p).bind d.file?).bind String.fromUTF8?

/-! ## Making directories and files -/

/-- Follows one segment and makes the directory that it names. -/
def enter (here : Disk × Place) (segment : String) : Disk × Place :=
  let (d, here) := here
  if Path.isIdle segment then (d, here)
  else if segment == ".." then (d, here.dropLast)
  else
    let here := here ++ [segment]
    ({ d with directories := here :: d.directories }, here)

/-- Makes the directory that a path leads to and all directories on the way. -/
def makeDirectory (d : Disk) (p : Path) : Disk := (p.segments.foldl enter (d, [])).1

/-- Writes a file and makes the directories on the way to it. -/
def write (d : Disk) (p : Path) (bytes : ByteArray) : Disk :=
  match p.segments.getLast? with
  | none => d
  | some name =>
    let (d, here) := p.segments.dropLast.foldl enter (d, [])
    { d with files := (here ++ [name], bytes) :: d.files }

end Disk

end ScriptTaint
