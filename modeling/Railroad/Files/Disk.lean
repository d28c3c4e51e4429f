import Railroad.Files.Basic

/-!
# Disks

What a run asks of the place where its files are kept.  Files in memory are such a place, and a
run on them can be reasoned about.
-/

namespace Railroad

structure Disk (m : Type → Type) where
  contains : String → m Bool
  readText : String → m (Except DiskFault String)
  writeText : String → String → m (Except DiskFault Unit)
  createDirectories : String → m (Except DiskFault Unit)

namespace Disk

/-- Goes on with changed files, or stays with the old ones where the change failed. -/
def applying (change : Files → Except DiskFault Files) : StateM Files (Except DiskFault Unit) :=
  fun files =>
    match change files with
    | .ok changed => (.ok (), changed)
    | .error fault => (.error fault, files)

/-- Files in memory. -/
def inMemory : Disk (StateM Files) where
  contains path files := (files.contains path, files)
  readText path files := (files.readText path, files)
  writeText path text := applying fun files => files.writeText path text
  createDirectories path := applying fun files => files.createDirectories path

end Disk

end Railroad
