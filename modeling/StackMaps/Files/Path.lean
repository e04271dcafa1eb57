import StackMaps.Name

/-!
Paths of files, kept as they were written. Between slashes stand the segments of a path. Empty ones
and single dots say nothing, other than at the start; the rest are its components.
-/

namespace StackMaps

structure Path where
  text : String
deriving DecidableEq, Repr

inductive PathComponent
  | root
  | current
  | parent
  | named (name : String)
deriving DecidableEq, Repr

namespace Path

def segments (p : Path) : List (List Char) := StackMaps.segments p.text.toList

def ofSegments (ss : List (List Char)) : Path := ⟨String.ofList (['/'].intercalate ss)⟩

def isAbsolute (p : Path) : Bool := p.text.toList.head? == some '/'

/-- Whether a segment other than the first says nothing. -/
def isIdle (s : List Char) : Bool := s == [] || s == ['.']

def component? (s : List Char) : Option PathComponent :=
  if isIdle s then none
  else if s = ['.', '.'] then some .parent
  else some (.named (String.ofList s))

/-- What the first segment stands for, before the others. -/
def leading? (s : List Char) (others : List (List Char)) : Option PathComponent :=
  if s = [] then if others.isEmpty then none else some .root
  else if s = ['.'] then some .current
  else component? s

def components (p : Path) : List PathComponent :=
  match p.segments with
  | [] => []
  | first :: others => (leading? first others).toList ++ others.filterMap component?

def fileName? (p : Path) : Option String :=
  match p.components.getLast? with
  | some (.named name) => some name
  | _ => none

def extension? (p : Path) : Option String := do
  let name ← p.fileName?
  let backwards := name.toList.reverse
  match backwards.dropWhile (· ≠ '.') with
  | _ :: _ :: _ => some (String.ofList (backwards.takeWhile (· ≠ '.')).reverse)
  | _ => none

def stem (name : List Char) : List Char :=
  match name.reverse.dropWhile (· ≠ '.') with
  | _ :: c :: before => (c :: before).reverse
  | _ => name

/-- The path with this extension of its file in the place of the one it has, if any. What stands idle
behind the file is cut off, and a path that ends in no name stays as it is. -/
def withExtension (p : Path) (extension : String) : Path :=
  match p.fileName?, p.segments.reverse.dropWhile isIdle with
  | some _, name :: above =>
    let added := if extension.isEmpty then [] else '.' :: extension.toList
    ofSegments ((stem name ++ added) :: above).reverse
  | _, _ => p

/-- The path without its last component and what stands idle around it. A root has no parent. -/
def parent? (p : Path) : Option Path :=
  match p.segments with
  | [] => none
  | first :: others =>
    match others.reverse.dropWhile isIdle with
    | _ :: above =>
      let kept := (above.dropWhile isIdle).reverse
      if first.isEmpty && kept.isEmpty then some ⟨"/"⟩ else some (ofSegments (first :: kept))
    | [] => if first.isEmpty then none else some ⟨""⟩

/-- The second path as seen from the first; an absolute one stays as it is. -/
def join (base p : Path) : Path :=
  if p.isAbsolute then p
  else
    match base.text.toList.getLast? with
    | none | some '/' => ⟨base.text ++ p.text⟩
    | some _ => ⟨base.text ++ "/" ++ p.text⟩

def gather (ss : List (List Char)) : Path := ss.foldl (fun p s => p.join ⟨String.ofList s⟩) ⟨""⟩

end Path

namespace BinaryName

@[irreducible] def path (n : BinaryName) : Path := (Path.gather n.segments).withExtension "class"

def packages (n : BinaryName) : List (List Char) := n.segments.dropLast

end BinaryName

namespace Path

/-- Leaves a directory for its parent as often as there are packages, the innermost first, each
of which has to be the name of the directory left. -/
def leaving (p : Path) : (packages : List (List Char)) → Option Path
  | [] => some p
  | package :: outer =>
    if p.fileName? = some (String.ofList package) then
      match p.parent? with
      | some above => above.leaving outer
      | none => none
    else none

/-- The root of the directory tree in which a class file is where its class belongs. -/
def impliedRoot (p : Path) (n : BinaryName) : Option Path := do
  let directory ← p.parent?
  let root ← directory.leaving n.packages.reverse
  return if root.text.isEmpty then ⟨"."⟩ else root

end Path

end StackMaps
