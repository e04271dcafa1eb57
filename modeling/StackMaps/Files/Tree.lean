import Std.Data.TreeMap
import StackMaps.Archive.Zip

/-!
A tree of files in memory, with a working directory, symbolic links and archives of the zip format.
-/

namespace StackMaps

inductive FileNode
  | file (bytes : ByteArray)
  | directory
  | link (target : Path)

/-- The names that lead from the root to a file, the last one first. -/
abbrev Location := List String

structure FileTree where
  nodes : Std.TreeMap Location FileNode
  working : Location

inductive Destination
  | found (l : Location)
  | vacant (l : Location)

namespace FileTree

def linkLimit : Nat := 40
def nameLimit : Nat := 255
def pathLimit : Nat := 4095

def node? (t : FileTree) (l : Location) : Option FileNode :=
  match l with
  | [] => some .directory
  | _ => t.nodes[l]?

def isDirectoryAt (t : FileTree) (l : Location) : Bool :=
  match t.node? l with
  | some .directory => true
  | _ => false

/-- Where segments lead from a location, through no more than `links` links; the last one is
followed only on demand. -/
def walk (t : FileTree) (follow : Bool) (links : Nat) (here : Location) :
    List (List Char) → Except FileFault Destination
  | [] => .ok (.found here)
  | s :: rest =>
    if !t.isDirectoryAt here then .error (.unusable "not a directory")
    else
      match Path.component? s with
      | none | some .root | some .current => t.walk follow links here rest
      | some .parent => t.walk follow links here.tail rest
      | some (.named name) =>
        if nameLimit < name.utf8ByteSize then .error (.unusable "file name too long")
        else
          match t.node? (name :: here) with
          | none => if rest.isEmpty then .ok (.vacant (name :: here)) else .error .missing
          | some (.link target) =>
            if rest.isEmpty && !follow then .ok (.found (name :: here))
            else
              match links with
              | 0 => .error (.unusable "too many levels of symbolic links")
              | links + 1 =>
                t.walk follow links (if target.isAbsolute then [] else here)
                  (target.segments ++ rest)
          | some _ => t.walk follow links (name :: here) rest
termination_by segments => (links, segments.length)

def locate (t : FileTree) (follow : Bool) (p : Path) : Except FileFault Destination :=
  if p.text.isEmpty then .error .missing
  else if p.text.toList.contains (Char.ofNat 0) then .error (.unusable "path contains a NUL")
  else if pathLimit < p.text.utf8ByteSize then .error (.unusable "file name too long")
  else t.walk follow linkLimit (if p.isAbsolute then [] else t.working) p.segments

def kind (t : FileTree) (p : Path) : Option FileKind :=
  match t.locate true p with
  | .ok (.found l) => some (if t.isDirectoryAt l then .directory else .file)
  | _ => none

def read (t : FileTree) (p : Path) : Except FileFault ByteArray :=
  match t.locate true p with
  | .error fault => .error fault
  | .ok (.vacant _) => .error .missing
  | .ok (.found l) =>
    match t.node? l with
    | some (.file bytes) => .ok bytes
    | _ => .error (.unusable "is a directory")

def list (t : FileTree) (p : Path) : Except FileFault (List String) :=
  match t.locate true p with
  | .error fault => .error fault
  | .ok (.vacant _) => .error .missing
  | .ok (.found l) =>
    if t.isDirectoryAt l then
      .ok (t.nodes.toList.filterMap fun (at_, _) =>
        match at_ with
        | name :: above => if above = l then some name else none
        | [] => none)
    else .error (.unusable "not a directory")

def pathOf (l : Location) : Path := ⟨"/" ++ "/".intercalate l.reverse⟩

def resolve (t : FileTree) (p : Path) : Option Path :=
  match t.locate true p with
  | .ok (.found l) => some (pathOf l)
  | _ => none

def createDirectory (t : FileTree) (p : Path) : Except FileFault FileTree :=
  match t.locate false p with
  | .error fault => .error fault
  | .ok (.found _) => .error (.unusable "file exists")
  | .ok (.vacant l) => .ok { t with nodes := t.nodes.insert l .directory }

def write (t : FileTree) (p : Path) (bytes : ByteArray) : Except FileFault FileTree :=
  match t.locate true p with
  | .error fault => .error fault
  | .ok (.vacant l) => .ok { t with nodes := t.nodes.insert l (.file bytes) }
  | .ok (.found l) =>
    if t.isDirectoryAt l then .error (.unusable "is a directory")
    else .ok { t with nodes := t.nodes.insert l (.file bytes) }

def change (f : FileTree → Except FileFault FileTree) : StateM FileTree (Except FileFault Unit) :=
  fun t =>
    match f t with
    | .ok changed => (.ok (), changed)
    | .error fault => (.error fault, t)

def system (limit : Nat) : FileSystem (StateM FileTree) where
  kind p := do return (← get).kind p
  read p := do return (← get).read p
  list p := do return (← get).list p
  resolve p := do return (← get).resolve p
  createDirectory p := change (·.createDirectory p)
  write p bytes := change (·.write p bytes)
  archives := Zip.reader
  limit := limit

def withDirectories (nodes : Std.TreeMap Location FileNode) :
    Location → Std.TreeMap Location FileNode
  | [] => nodes
  | name :: above => withDirectories (nodes.insertIfNew (name :: above) .directory) above

def below (here : Location) (p : Path) : Location :=
  p.components.foldl
    (fun l c =>
      match c with
      | .named name => name :: l
      | _ => l)
    here

def empty (working : Path) : FileTree :=
  let here := below [] working
  ⟨withDirectories ∅ here, here⟩

def place (t : FileTree) (p : Path) (n : FileNode) : FileTree :=
  let l := below t.working p
  { t with nodes := (withDirectories t.nodes l.tail).insert l n }

/-- The files below the working directory that the other tree holds otherwise or not at all. -/
def changedSince (t earlier : FileTree) : List (Path × ByteArray) :=
  t.nodes.toList.filterMap fun (l, n) =>
    match n with
    | .file bytes =>
      let unchanged :=
        match earlier.nodes[l]? with
        | some (.file before) => before == bytes
        | _ => false
      if unchanged || !t.working.isSuffixOf l then none
      else some (⟨"/".intercalate (l.take (l.length - t.working.length)).reverse⟩, bytes)
    | _ => none

end FileTree

end StackMaps
