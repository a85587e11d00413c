import Std.Data.TreeMap
import ParticleChain.Disk.Path

/-!
# Disks

A disk has directories and files by place, a place being the names on the way from the root.
Each operation starts from a path and fails for the reason the system would give. Whether it lets
anything be written is for the system to decide.
-/

namespace ParticleChain

namespace Disk

abbrev Place := List String

inductive Entry where
  | directory
  | file (content : ByteArray)
  /-- A file that can be run; what it does is not said here. -/
  | program

inductive Error where
  | notFound
  | denied
  | exists
  | notDirectory
  | isDirectory
  | nameTooLong
  /-- The path has a zero character in it, where the system would take it to end. -/
  | zeroInPath
  /-- The device does not do what it should. -/
  | deviceFailed
  | full
  | readOnly
  /-- Text was asked for, but the bytes are no UTF-8. -/
  | notText
  deriving DecidableEq, Repr

def Error.message : Error → String
  | notFound => "No such file or directory (os error 2)"
  | denied => "Permission denied (os error 13)"
  | .exists => "File exists (os error 17)"
  | notDirectory => "Not a directory (os error 20)"
  | isDirectory => "Is a directory (os error 21)"
  | nameTooLong => "File name too long (os error 36)"
  | zeroInPath => "file name contained an unexpected NUL byte"
  | deviceFailed => "Input/output error (os error 5)"
  | full => "No space left on device (os error 28)"
  | readOnly => "Read-only file system (os error 30)"
  | notText => "stream did not contain valid UTF-8"

/-- The number of bytes a name may have. -/
def maxName : Nat := 255

/-- The number of bytes a path may have. -/
def maxPath : Nat := 4095

/-- Everything but the root, which is a directory. -/
abbrev Entries := Std.TreeMap Place Entry

/-- Why the system does not let something be put at a place, if it does not: a disk may be full,
read-only or failing, or the place be someone else's. -/
abbrev Policy := Entries → Place → Entry → Option Error

/-- Everything may be written. -/
def Policy.open : Policy := fun _ _ _ => none

end Disk

structure Disk where
  entries : Disk.Entries
  /-- Where relative paths start. -/
  here : Disk.Place
  policy : Disk.Policy

namespace Disk

def empty (here : Place) : Disk := ⟨∅, here, .open⟩

def entry? (d : Disk) (place : Place) : Option Entry :=
  if place.isEmpty then some .directory else d.entries[place]?

def put (d : Disk) (place : Place) (e : Entry) : Disk :=
  { d with entries := d.entries.insert place e }

/-- Puts something at a place if the system lets it be there; else all stays as it is. -/
def offer (d : Disk) (place : Place) (e : Entry) : Except Error Disk :=
  match d.policy d.entries place e with
  | some reason => .error reason
  | none => .ok (d.put place e)

/-! ## Finding places -/

/-- Goes from a place step by step. All but the last must be directories; the last need not be
there. -/
def walk (d : Disk) (place : Place) : List String → Except Error Place
  | [] => .ok place
  | step :: rest =>
    match d.entry? place with
    | none => .error .notFound
    | some .directory =>
      if step = "." then walk d place rest
      else if step = ".." then walk d place.dropLast rest
      else if maxName < step.utf8ByteSize then .error .nameTooLong
      else walk d (place ++ [step]) rest
    | some _ => .error .notDirectory

def start (d : Disk) (p : Path) : Place := if p.isAbsolute then [] else d.here

/-- Why a path leads nowhere on any disk. -/
def refusal? (p : Path) : Option Error :=
  let text := p.render
  if text.contains '\x00' then some .zeroInPath
  else if text.isEmpty then some .notFound
  else if maxPath < text.utf8ByteSize then some .nameTooLong
  else none

/-- The place of a path. -/
def find (d : Disk) (p : Path) : Except Error Place :=
  match refusal? p with
  | some e => .error e
  | none => d.walk (d.start p) p.steps

/-- What is at a path. -/
def look (d : Disk) (p : Path) : Except Error Entry := do
  match d.entry? (← d.find p) with
  | some e => return e
  | none => throw .notFound

/-- Whether anything is at a path. -/
def has (d : Disk) (p : Path) : Bool := (d.look p).toBool

/-! ## Files -/

def read (d : Disk) (p : Path) : Except Error ByteArray := do
  match ← d.look p with
  | .directory => throw .isDirectory
  | .file content => return content
  | .program => return .empty

def readText (d : Disk) (p : Path) : Except Error String := do
  match String.fromUTF8? (← d.read p) with
  | some text => return text
  | none => throw .notText

/-- Makes a file, or gives it other content. -/
def write (d : Disk) (p : Path) (content : ByteArray) : Except Error Disk := do
  let place ← d.find p
  match d.entry? place with
  | some .directory => throw .isDirectory
  | _ => d.offer place (.file content)

def writeText (d : Disk) (p : Path) (text : String) : Except Error Disk := d.write p text.toUTF8

/-- Takes a file away. -/
def removeFile (d : Disk) (p : Path) : Except Error Disk := do
  let place ← d.find p
  match d.entry? place with
  | none => throw .notFound
  | some .directory => throw .isDirectory
  | some _ => return { d with entries := d.entries.erase place }

/-- The disk without a file, if it can be taken away. -/
def withoutFile (d : Disk) (p : Path) : Disk :=
  match d.removeFile p with
  | .ok d => d
  | .error _ => d

/-! ## Directories -/

/-- Makes the directories on the way that are missing; what is made stays even if the way ends
too early. As long as nothing was missing, a file on the way is no directory; later it is what
keeps a directory from being made. Steps `.` at the end make nothing: they ask for a directory
that is there. -/
def makeWay (d : Disk) (place : Place) (made : Bool) : List String → Except Error Unit × Disk
  | [] => (.ok (), d)
  | step :: rest =>
    if step = "." then makeWay d place made rest
    else if step = ".." then makeWay d place.dropLast made rest
    else if maxName < step.utf8ByteSize then (.error .nameTooLong, d)
    else
      let next := place ++ [step]
      let isAsked := !rest.isEmpty && rest.all (· == ".")
      match d.entry? next with
      | some .directory => makeWay d next made rest
      | some _ =>
        (.error (if rest.isEmpty || made && !isAsked then .exists else .notDirectory), d)
      | none =>
        if isAsked then (.error .notFound, d)
        else match d.offer next .directory with
          | .ok d => makeWay d next true rest
          | .error e => (.error e, d)

/-- Makes a directory and those on the way to it. -/
def makeDirectories (d : Disk) (p : Path) : Except Error Unit × Disk :=
  if p.render.isEmpty then (.ok (), d)
  else match refusal? p with
    | some e => (.error e, d)
    | none => d.makeWay (d.start p) false p.parts

/-- What is directly below a place, by name. -/
def below (d : Disk) (place : Place) : List (String × Entry) :=
  d.entries.toList.filterMap fun (q, e) =>
    match q.getLast? with
    | some name => if q.dropLast = place then some (name, e) else none
    | none => none

/-- The names in a directory with what they stand for, in order. -/
def list (d : Disk) (p : Path) : Except Error (List (String × Entry)) := do
  let place ← d.find p
  match d.entry? place with
  | none => throw .notFound
  | some .directory => return d.below place
  | some _ => throw .notDirectory

/-- Takes a place away with everything below it. -/
def removeTree (d : Disk) (place : Place) : Disk :=
  { d with entries := d.entries.filter fun q _ => !place.isPrefixOf q }

end Disk

end ParticleChain
