import StackMaps.Error
import StackMaps.Files.System

/-!
Why a class path, or a class on it, cannot be used.
-/

namespace StackMaps

inductive ClassPathError
  | missingEntry (path : Path)
  | unreadable (path : Path) (fault : FileFault)
  | badArchive (path : Path) (fault : ArchiveFault)
  | badClass (location : Path) (e : Error)
deriving DecidableEq

def ClassPathError.message : ClassPathError → String
  | missingEntry path => s!"class path entry {path.text} does not exist"
  | unreadable path fault => s!"{path.text}: {fault.message}"
  | badArchive path fault => s!"{path.text}: {fault.message}"
  | badClass location e => s!"{location.text}: {e.message}"

end StackMaps
