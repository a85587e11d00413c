import ParticleChain.CommandLine
import ParticleChain.Disk.Difference

/-!
# The program

Takes what a run may look at from the file system into a disk, runs, and makes the changes of
the disk in the file system. No compiler is started: contracts are those built before.
-/

namespace ParticleChain.Program

/-- A compiler that has nothing to do, for the binary is there; without one it fails. -/
def prebuilt : Compiler := fun args d =>
  let stem := Path.stem (((args.getLastD "").splitOn "/").getLastD "")
  let output := ((args.dropWhile (· != "-o")).drop 1).headD ""
  (some (if d.has (Path.ofText output / s!"{stem}.bin") then 0 else 1), d)

/-- How deep directories are looked into. -/
def maxNesting : Nat := 64

/-- The place that a path names from `here` on. -/
def placeOf (here : Disk.Place) (p : Path) : Disk.Place :=
  p.steps.foldl (fun place step =>
    if step == "." then place
    else if step == ".." then place.dropLast
    else place ++ [step]) (if p.isAbsolute then [] else here)

def entryAt (place : Disk.Place) : IO.FS.DirEntry := ⟨"/", "/".intercalate place⟩

/-- Adds what is at a place and below it. -/
def loadTree : Nat → Disk.Place → Disk → IO Disk
  | 0, _, d => return d
  | n + 1, place, d => do
    let path := (entryAt place).path
    if ← path.isDir then
      (← path.readDir).foldlM (fun d e => loadTree n (place ++ [e.fileName]) d)
        (d.put place .directory)
    else if ← path.pathExists then
      try return d.put place (.file (← IO.FS.readBinFile path))
      catch _ => return d
    else return d

/-- Adds the directories on the way to a place, as far as they are there. -/
def loadWay (place : Disk.Place) (d : Disk) : IO Disk :=
  (List.range place.length).foldlM (fun d n => do
    let place := place.take n
    if ← (entryAt place).path.isDir then return d.put place .directory else return d) d

/-- Adds the compiler, if it is there. -/
def loadCompiler (place : Disk.Place) (d : Disk) : IO Disk := do
  let path := (entryAt place).path
  if ← path.isDir then return d.put place .directory
  else if ← path.pathExists then return d.put place .program
  else return d

/-- Adds all that a run with these options may look at. -/
def load (searchPath : List String) (o : CommandLine.Options) (d : Disk) : IO Disk := do
  let files := match o.action with
    | some (.publish _ file) | some (.sample file) => [file]
    | none => []
  let places := ([o.config.storage, o.config.templates] ++ files).map fun text =>
    placeOf d.here (.ofText text)
  let compilers := (Compiler.candidates searchPath o.config.compiler).map (placeOf d.here)
  let d ← (compilers ++ places).foldlM (fun d place => loadWay place d) d
  let d ← places.foldlM (fun d place => loadTree maxNesting place d) d
  compilers.foldlM (fun d place => loadCompiler place d) d

def Change.make : Disk.Change → IO Unit
  | .remove place => IO.FS.removeFile (entryAt place).path
  | .makeDirectory place => IO.FS.createDirAll (entryAt place).path
  | .write place content => IO.FS.writeBinFile (entryAt place).path content

/-- The variables of the environment that a run looks up. -/
def settingKeys : List String :=
  ["DCN_SOLC", "DCN_PT_PATH", "DCN_STORAGE_PATH", "DCN_LOG_LEVEL", "DCN_GAS_LIMIT", "PATH"]

def environment : IO (String → Option String) := do
  let values ← settingKeys.mapM fun key => return (key, ← IO.getEnv key)
  return fun key => (values.lookup key).join

end ParticleChain.Program

open ParticleChain

/-- Runs the command line with the arguments of the program. -/
def main (args : List String) : IO UInt32 := do
  let args := "dcn" :: args
  let lookup ← Program.environment
  let here := ((← IO.currentDir).toString.splitOn "/").filter (!·.isEmpty)
  let old ← match CommandLine.options lookup args with
    | .ok o => Program.load (CommandLine.searchPath lookup) o (.empty here)
    | .error _ => pure (.empty here)
  let (exit, new) := CommandLine.run Program.prebuilt lookup args old
  (old.changes new).forM Program.Change.make
  IO.print exit.output
  IO.eprint exit.complaint
  return exit.code.toUInt32
