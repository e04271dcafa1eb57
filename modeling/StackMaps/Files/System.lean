import StackMaps.Files.Path

/-!
What is asked of the files around a program. It is asked in a monad, so that the same questions can
be put to a disk and to a tree of files in memory. How archives are laid out is left open as well: a
file system comes with a reader of them.
-/

namespace StackMaps

inductive FileKind
  | file
  | directory
deriving DecidableEq, Repr

inductive FileFault
  | missing
  | unusable (reason : String)
deriving DecidableEq, Repr

def FileFault.message : FileFault → String
  | missing => "no such file or directory"
  | unusable reason => reason

inductive ArchiveFault
  | missing
  | unusable (reason : String)
deriving DecidableEq, Repr

def ArchiveFault.message : ArchiveFault → String
  | missing => "specified file not found in archive"
  | unusable reason => reason

/-- An archive that is open. A file that it has can still turn out to be damaged when it is read. -/
structure Archive where
  file : String → Except ArchiveFault (Except FileFault ByteArray)

/-- Opens archives, none of which has more than `limit` files. -/
structure ArchiveReader where
  openArchive : ByteArray → Except ArchiveFault Archive
  limit : Nat

/-- Paths are followed through symbolic links. `list` gives the names in a directory, `resolve` the
absolute path without links, and no more than `limit` files can be read. -/
structure FileSystem (m : Type → Type) where
  kind : Path → m (Option FileKind)
  read : Path → m (Except FileFault ByteArray)
  list : Path → m (Except FileFault (List String))
  resolve : Path → m (Option Path)
  createDirectory : Path → m (Except FileFault Unit)
  write : Path → ByteArray → m (Except FileFault Unit)
  archives : ArchiveReader
  limit : Nat

namespace FileSystem

variable {m : Type → Type} [Monad m]

def isDirectory (fs : FileSystem m) (p : Path) : m Bool := do
  return (← fs.kind p) = some .directory

def isFile (fs : FileSystem m) (p : Path) : m Bool := do
  return (← fs.kind p) = some .file

def ensureDirectory (fs : FileSystem m) (p : Path) : m (Except FileFault Unit) := do
  match ← fs.createDirectory p with
  | .ok () => return .ok ()
  | .error fault =>
    if ← fs.isDirectory p then return .ok ()
    else return .error fault

/-- Creates a directory and those above it that are missing. A path has no more directories above it
than characters. -/
def ensureDirectoriesWithin (fs : FileSystem m) : (depth : Nat) → Path → m (Except FileFault Unit)
  | 0, p => fs.ensureDirectory p
  | depth + 1, p => do
    if p.text.isEmpty then return .ok ()
    match ← fs.ensureDirectory p with
    | .error .missing =>
      match p.parent? with
      | none => return .error .missing
      | some above =>
        match ← fs.ensureDirectoriesWithin depth above with
        | .ok () => fs.ensureDirectory p
        | .error fault => return .error fault
    | result => return result

def ensureDirectories (fs : FileSystem m) (p : Path) : m (Except FileFault Unit) :=
  fs.ensureDirectoriesWithin p.text.length p

def writeWithin (fs : FileSystem m) (p : Path) (bytes : ByteArray) : m (Except FileFault Unit) := do
  let ready ←
    match p.parent? with
    | some above => fs.ensureDirectories above
    | none => pure (.ok ())
  match ready with
  | .error fault => return .error fault
  | .ok () => fs.write p bytes

end FileSystem

end StackMaps
