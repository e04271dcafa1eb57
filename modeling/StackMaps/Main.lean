import StackMaps.Archive.Zip
import StackMaps.CommandLine

/-!
The program, on the files of a disk, among which archives are zip files.
-/

namespace StackMaps.Disk

def fault : IO.Error → FileFault
  | .noFileOrDirectory .. => .missing
  | e => .unusable (toString e)

def attempt {α : Type} (action : IO α) : IO (Except FileFault α) := do
  match ← action.toBaseIO with
  | .ok x => return .ok x
  | .error e => return .error (fault e)

def kind (p : Path) : IO (Option FileKind) := do
  match ← attempt (do return (← (← IO.FS.realPath p.text).metadata).type) with
  | .ok .dir => return some .directory
  | .ok .file => return some .file
  | _ => return none

def list (p : Path) : IO (List String) := do
  return ((← (← IO.FS.realPath p.text).readDir).map (·.fileName)).toList

def resolve (p : Path) : IO (Option Path) := do
  match ← attempt (IO.FS.realPath p.text) with
  | .ok resolved => return some ⟨resolved.toString⟩
  | .error _ => return none

def fileLimit : Nat := 0x10000000000

def system : FileSystem IO where
  kind := kind
  read p := attempt (IO.FS.readBinFile p.text)
  list p := attempt (list p)
  resolve := resolve
  createDirectory p := attempt (IO.FS.createDir p.text)
  write p bytes := attempt (IO.FS.writeBinFile p.text bytes)
  archives := Zip.reader
  limit := fileLimit

end StackMaps.Disk

def main (arguments : List String) : IO UInt32 := do
  let env : StackMaps.Environment := ⟨← IO.getEnv "JAVA_HOME", ← IO.getEnv "PATH"⟩
  let outcome ← StackMaps.CommandLine.run StackMaps.Disk.system env arguments
  IO.print outcome.output
  for complaint in outcome.complaints do
    IO.eprintln complaint
  return outcome.status.toUInt32
