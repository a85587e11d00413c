import ParticleChain.Artifact.Format
import ParticleChain.Config
import ParticleChain.Disk.Basic

/-!
# Where records are kept

Each kind has a directory with its records, one file a name, and below it a directory with what
the compiler made of them. A marker says for which contract sources these builds are good.
-/

namespace ParticleChain.Publishing

open Artifact (Kind Record)

section

variable (c : Config) (k : Kind) (name : String)

def storage : Path := .ofText c.storage

def recordsDirectory : Path := storage c / k.plural

def buildDirectory : Path := recordsDirectory c k / "build"

def recordFile : Path := recordsDirectory c k / s!"{name}.json"

/-- The source of a contract, which is there only while it is compiled. -/
def sourceFile : Path := buildDirectory c k / s!"{name}.sol"

def binaryFile : Path := buildDirectory c k / s!"{name}.bin"

def interfaceFile : Path := buildDirectory c k / s!"{name}.abi"

def versionFile : Path := storage c / "pt_solidity_build_version"

end

/-- The version of the contract sources. -/
def buildVersion : String := "ctor-v1"

/-- Makes the directories of every kind. -/
def makeLayout (c : Config) : List Kind → Disk → Except Disk.Error Unit × Disk
  | [], d => (.ok (), d)
  | k :: kinds, d =>
    match d.makeDirectories (buildDirectory c k) with
    | (.ok (), d) => makeLayout c kinds d
    | (.error e, d) => (.error e, d)

/-! ## Records -/

inductive SaveError where
  | missingDirectory (directory : Path)
  | disk (reason : Disk.Error)
  deriving DecidableEq

def SaveError.message : SaveError → String
  | missingDirectory directory =>
    let text := directory.render
    s!"directory {text} does not exist"
  | disk reason =>
    let text := reason.message
    s!"i/o error: {text}"

/-- Writes the file of a record. -/
def saveRecord {k : Kind} (c : Config) (r : Record k) (d : Disk) : Except SaveError Disk :=
  let directory := recordsDirectory c k
  if d.has directory then (d.writeText (recordFile c k r.name) r.render).mapError .disk
  else .error (.missingDirectory directory)

/-- The record in a file by this name, under the name's stem. -/
def storedRecord? (c : Config) (k : Kind) (d : Disk) (name : String) :
    Option (String × Record k) :=
  if Path.extension? name = some "json" then
    match d.readText (recordsDirectory c k / name) with
    | .ok text => (Record.parse? text).map fun r => (Path.stem name, r)
    | .error _ => none
  else none

/-- The records of a kind by the stems of their files; files without a record are left out. -/
def storedRecords (c : Config) (k : Kind) (d : Disk) :
    Except Disk.Error (Std.TreeMap String (Record k)) := do
  let entries ← d.list (recordsDirectory c k)
  return .ofList (entries.filterMap fun (name, _) => storedRecord? c k d name)

/-! ## Builds -/

/-- Removes the build of a name. -/
def dropBuild (c : Config) (k : Kind) (name : String) (d : Disk) : Disk :=
  (d.withoutFile (binaryFile c k name)).withoutFile (interfaceFile c k name)

/-- The first line of a text, without its end. -/
def firstLine (text : String) : String :=
  let line := text.toList.takeWhile (· != '\n')
  if line.length < text.length && line.getLast? == some '\r' then String.ofList line.dropLast
  else String.ofList line

def storedVersion (c : Config) (d : Disk) : String :=
  match d.readText (versionFile c) with
  | .ok text => firstLine text
  | .error _ => ""

def isBuild : String × Disk.Entry → Bool
  | (name, .file _) => Path.extension? name == some "bin" || Path.extension? name == some "abi"
  | _ => false

/-- Removes all builds of a kind. -/
def dropBuilds (c : Config) (k : Kind) (d : Disk) : Except Disk.Error Disk :=
  let directory := buildDirectory c k
  if d.has directory then do
    let entries ← d.list directory
    (entries.filter isBuild).foldlM (fun d (name, _) => d.removeFile (directory / name)) d
  else .ok d

/-- Removes the builds of the kinds, up to one whose directory cannot be listed. -/
def dropAllBuilds (c : Config) : List Kind → Disk → Except Disk.Error Unit × Disk
  | [], d => (.ok (), d)
  | k :: kinds, d =>
    match dropBuilds c k d with
    | .ok d => dropAllBuilds c kinds d
    | .error e => (.error e, d)

def writeVersion (c : Config) (d : Disk) : Except Disk.Error Unit × Disk :=
  match d.makeDirectories (storage c) with
  | (.error e, d) => (.error e, d)
  | (.ok (), d) =>
    match d.writeText (versionFile c) buildVersion with
    | .error e => (.error e, d)
    | .ok d => (.ok (), d)

/-- Removes builds of other versions of the sources; whether the version was another one. -/
def renewBuilds (c : Config) (d : Disk) : Except Disk.Error Bool × Disk :=
  if storedVersion c d = buildVersion then (.ok false, d)
  else match dropAllBuilds c Kind.all d with
    | (.error e, d) => (.error e, d)
    | (.ok (), d) =>
      match writeVersion c d with
      | (.error e, d) => (.error e, d)
      | (.ok (), d) => (.ok true, d)

end ParticleChain.Publishing
