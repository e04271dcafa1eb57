import StackMaps.Hierarchy.ClassGraph
import StackMaps.Warning

/-!
Where classes are looked for: directory trees, archives of classes, and the module archives of a
JDK. The first entry that holds a class counts.
-/

namespace StackMaps

/-- A module archive keeps classes below `classes/`, and has a header before the archive. -/
inductive EntryKind
  | directory
  | jar
  | jmod
deriving DecidableEq, Repr

structure ClassPathEntry where
  kind : EntryKind
  path : Path
deriving DecidableEq

structure ClassPath where
  entries : List ClassPathEntry
deriving DecidableEq

namespace ClassPath

def empty : ClassPath := ⟨[]⟩

abbrev Change (m : Type → Type) (α : Type) := ExceptT ClassPathError (StateT ClassPath m) α

section

variable {m : Type → Type} [Monad m]

def entryKind? (fs : FileSystem m) (p : Path) : m (Option EntryKind) := do
  match ← fs.kind p with
  | some .directory => return some .directory
  | some .file => return some (if p.extension? = some "jmod" then .jmod else .jar)
  | none => return none

def push (fs : FileSystem m) (p : Path) : Change m Unit := do
  match ← (entryKind? fs p : m (Option EntryKind)) with
  | none => throw (.missingEntry p)
  | some kind => modify fun cp => ⟨cp.entries ++ [⟨kind, p⟩]⟩

def pushAll (fs : FileSystem m) : List Path → Change m Unit
  | [] => return ()
  | p :: ps => do
    push fs p
    pushAll fs ps

def baseModule : String := "java.base.jmod"

/-- The order of module archives: the base module, then by name. -/
def isModuleBefore (a b : String) : Bool := a = baseModule || (b ≠ baseModule && a ≤ b)

/-- The library archives of a JDK: its modules, or the single archive that JDKs had before they had
modules. -/
def library (fs : FileSystem m) (home : Path) : ExceptT ClassPathError m (List Path) := do
  let modules := home.join ⟨"jmods"⟩
  if ← (fs.isDirectory modules : m Bool) then
    match ← (fs.list modules : m (Except FileFault (List String))) with
    | .error fault => throw (.unreadable modules fault)
    | .ok names =>
      let names := names.filter fun name => (Path.mk name).extension? = some "jmod"
      return (names.mergeSort isModuleBefore).map fun name => modules.join ⟨name⟩
  else
    let newer := home.join ⟨"lib/rt.jar"⟩
    let older := home.join ⟨"jre/lib/rt.jar"⟩
    if ← (fs.isFile newer : m Bool) then return [newer]
    else if ← (fs.isFile older : m Bool) then return [older]
    else return []

def pushLibrary (fs : FileSystem m) (home : Path) : Change m Nat := do
  match ← ((library fs home).run : m (Except ClassPathError (List Path))) with
  | .error e => throw e
  | .ok paths =>
    pushAll fs paths
    return paths.length

end

def archived? (archives : ArchiveReader) (location : Path) (bytes : ByteArray) (name : String) :
    Except ClassPathError (Option ByteArray) :=
  match archives.openArchive bytes with
  | .error fault => .error (.badArchive location fault)
  | .ok archive =>
    match archive.file name with
    | .error .missing => .ok none
    | .error fault => .error (.badArchive location fault)
    | .ok (.error fault) => .error (.unreadable location fault)
    | .ok (.ok contents) => .ok (some contents)

def moduleArchive (location : Path) (bytes : ByteArray) : Except ClassPathError ByteArray :=
  match bytes.data.toList.take 4 with
  | [0x4a, 0x4d, _, _] => .ok (bytes.extract 4 bytes.size)
  | [_, _, _, _] => .error (.unreadable location (.unusable "missing JM header"))
  | _ => .error (.unreadable location (.unusable "failed to fill whole buffer"))

end ClassPath

namespace ClassPathEntry

variable {m : Type → Type} [Monad m]

def location (e : ClassPathEntry) (n : BinaryName) : Path :=
  match e.kind with
  | .directory => e.path.join n.path
  | .jar | .jmod => e.path

def unwrap (archives : ArchiveReader) (e : ClassPathEntry) (n : BinaryName) (bytes : ByteArray) :
    Except ClassPathError (Option ByteArray) :=
  match e.kind with
  | .directory => .ok (some bytes)
  | .jar => ClassPath.archived? archives e.path bytes n.entryName
  | .jmod => do
    let bytes ← ClassPath.moduleArchive e.path bytes
    ClassPath.archived? archives e.path bytes ("classes/" ++ n.entryName)

/-- The class file under a name, if the entry has one. Only in a directory a file may be missing. -/
def classFile? (fs : FileSystem m) (e : ClassPathEntry) (n : BinaryName) :
    m (Except ClassPathError (Option ByteArray)) := do
  let location := e.location n
  match ← fs.read location with
  | .ok bytes => return e.unwrap fs.archives n bytes
  | .error fault =>
    if e.kind = .directory ∧ fault = .missing then return .ok none
    else return .error (.unreadable location fault)

end ClassPathEntry

namespace ClassPath

def headerOf (location : Path) (bytes : ByteArray) : Except ClassPathError ClassHeader :=
  match ClassFile.parse bytes.data.toList with
  | .error e => .error (.badClass location (.format e))
  | .ok c => (ClassHeader.ofClassFile c).mapError (.badClass location)

section

variable {m : Type → Type} [Monad m]

/-- Looks for a class in entries. A class file with another name than that under which it was found
is passed over. -/
def loadFrom (fs : FileSystem m) (n : BinaryName) :
    List ClassPathEntry → ExceptT ClassPathError (Warned m) (Option ClassHeader)
  | [] => return none
  | e :: rest => do
    match ← (e.classFile? fs n : m (Except ClassPathError (Option ByteArray))) with
    | .error e => throw e
    | .ok none => loadFrom fs n rest
    | .ok (some bytes) =>
      let location := e.location n
      let header ← MonadExcept.ofExcept (headerOf location bytes)
      if header.name = n then return some header
      else
        (warn (.misplacedClass location header.name n) : Warned m Unit)
        loadFrom fs n rest

def load (fs : FileSystem m) (cp : ClassPath) (n : BinaryName) :
    ExceptT ClassPathError (Warned m) (Option ClassHeader) :=
  loadFrom fs n cp.entries

/-- Loads classes from a class path; a class that cannot be loaded is as good as missing. A file is a
class, or an archive of classes. -/
def loader (fs : FileSystem m) (cp : ClassPath) : ClassLoader (Warned m) where
  load n := do
    match ← (cp.load fs n).run with
    | .ok found => return found
    | .error e =>
      warn (.failedLoad n e)
      return none
  capacity := fs.limit * (1 + fs.archives.limit)

end

end ClassPath

end StackMaps
