import ParticleChain.Disk.Basic

/-!
# What became of a disk

The changes that turn one disk into another, in an order in which they can be made.
-/

namespace ParticleChain.Disk

inductive Change where
  | remove (place : Place)
  | makeDirectory (place : Place)
  | write (place : Place) (content : ByteArray)

/-- The change after which an entry of `new` is at its place. -/
def Change.toward? (old : Disk) (place : Place) (e : Entry) : Option Change :=
  match e, old.entries[place]? with
  | .directory, some .directory => none
  | .directory, _ => some (.makeDirectory place)
  | .file content, some (.file before) =>
    if content == before then none else some (.write place content)
  | .file content, _ => some (.write place content)
  | .program, _ => none

/-- What is gone is removed first, from the leaves on; what is there is made from the root on. -/
def changes (old new : Disk) : List Change :=
  let gone := old.entries.keys.filter fun place => !new.entries.contains place
  gone.reverse.map .remove ++
    new.entries.toList.filterMap fun (place, e) => Change.toward? old place e

end ParticleChain.Disk
