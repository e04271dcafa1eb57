import StackMaps.ClassFile.Basic

/-!
What the analysis asks about classes: the common superclass of two, and whether one type can be
used as another. Answers are computed from class headers, which a source gives out by name; that the
superclass links of foreign classes end, or lead anywhere, is not assumed.
-/

namespace StackMaps

/-- What a class says about its place in the hierarchy. Only `java/lang/Object` has no superclass;
the superclass of an interface is `java/lang/Object`. -/
structure ClassHeader where
  name : BinaryName
  superclass : Option BinaryName
  interfaces : List BinaryName
  flags : ClassFlags
deriving DecidableEq

namespace ClassHeader

def isInterface (h : ClassHeader) : Bool := ClassFlags.isInterface h.flags

def ofClassFile (c : ClassFile) : Except Error ClassHeader := do
  let name ← c.thisName
  let superclass ← c.superName
  let interfaces ← c.interfaceNames
  return ⟨name, superclass, interfaces, c.flags⟩

def parents (h : ClassHeader) (withInterfaces : Bool) : List BinaryName :=
  h.superclass.toList ++ if withInterfaces then h.interfaces else []

end ClassHeader

/-- A source of class headers. No more than `bound` names have one. -/
structure HeaderSource (m : Type → Type) where
  find : BinaryName → m (Option ClassHeader)
  bound : Nat

abbrev Query (m : Type → Type) (α : Type) := ExceptT BinaryName m α

def ofExcept {m : Type → Type} [Monad m] {α : Type} (result : Except Error α) : ExceptT Error m α :=
  ExceptT.mk (pure result)

inductive SearchStep
  | exhausted
  | hit
  | expand (h : ClassHeader) (rest : List BinaryName)

namespace HeaderSource

variable {m : Type → Type} [Monad m]

def isInterface (s : HeaderSource m) (n : BinaryName) : m Bool := do
  match ← s.find n with
  | some h => return h.isInterface
  | none => return false

def require (s : HeaderSource m) (n : BinaryName) : Query m ClassHeader := do
  match ← s.find n with
  | some h => return h
  | none => throw n

def chainFrom (s : HeaderSource m) : (fuel : Nat) → (seen : List BinaryName) →
    (next : Option BinaryName) → Query m (List BinaryName)
  | 0, _, _ | _, _, none => pure []
  | fuel + 1, seen, some n =>
    if n ∈ seen then pure []
    else do
      let h ← s.require n
      let rest ← chainFrom s fuel (n :: seen) h.superclass
      return n :: rest

/-- A class and its superclasses, each once. All but the last have a header, so `bound + 1` steps
are enough. -/
def superclasses (s : HeaderSource m) (n : BinaryName) : Query m (List BinaryName) :=
  s.chainFrom (s.bound + 1) [] (some n)

/-- The nearest superclass of the second class that is one of the first; `java/lang/Object` where
an interface is involved, as to the type checker an interface is no more than that. -/
def commonSuperclass (s : HeaderSource m) (a b : BinaryName) : Query m BinaryName :=
  if a = b then pure a
  else do
    let first ← s.require a
    let second ← s.require b
    if first.isInterface || second.isInterface then
      return .object
    else
      let above ← s.superclasses a
      let candidates ← s.superclasses b
      return (candidates.find? (above.contains ·)).getD .object

def nextStep (s : HeaderSource m) (wanted : BinaryName) : List BinaryName → m SearchStep
  | [] => return .exhausted
  | n :: rest =>
    if n = wanted then return .hit
    else do
      match ← s.find n with
      | some h => return .expand h rest
      | none => nextStep s wanted rest

def enqueue (parents seen pending : List BinaryName) : List BinaryName × List BinaryName :=
  parents.foldl
    (fun (seen, pending) n => if n ∈ seen then (seen, pending) else (n :: seen, n :: pending))
    (seen, pending)

/-- Searches the classes above the pending ones for the wanted one. Every step but the last takes a
header that was not taken before. -/
def searchFrom (s : HeaderSource m) (wanted : BinaryName) (withInterfaces : Bool) :
    (fuel : Nat) → (seen pending : List BinaryName) → m Bool
  | 0, _, _ => return false
  | fuel + 1, seen, pending => do
    match ← s.nextStep wanted pending with
    | .exhausted => return false
    | .hit => return true
    | .expand h rest =>
      let (seen, pending) := enqueue (h.parents withInterfaces) seen rest
      searchFrom s wanted withInterfaces fuel seen pending

/-- Whether a class is another one, `java/lang/Object`, or below it. Interfaces lead nowhere but to
interfaces, so they are left out in a search for a class. -/
def isSubclass (s : HeaderSource m) (sub sup : BinaryName) : m Bool :=
  if sub = sup ∨ sup = .object then return true
  else do
    let withInterfaces ← s.isInterface sup
    s.searchFrom sup withInterfaces (s.bound + 1) [sub] [sub]

def isAboveArrays (n : BinaryName) : Bool :=
  n = .object || n = .cloneable || n = .serializable

def isArrayAssignable (s : HeaderSource m) (a b : ElementType) : (i j : Nat) → m Bool
  | 0, 0 =>
    match a, b with
    | .object sub, .object sup => s.isSubclass sub sup
    | a, b => return a = b
  | 0, _ + 1 => return false
  | _ + 1, 0 =>
    match b with
    | .object sup => return isAboveArrays sup
    | .base _ => return false
  | i + 1, j + 1 => isArrayAssignable s a b i j

/-- Whether a value of one type can be used as one of the other. Classes without a header are below
nothing but themselves and `java/lang/Object`. -/
def isAssignable (s : HeaderSource m) : RefType → RefType → m Bool
  | .object sub, .object sup => s.isSubclass sub sup
  | .array _ _, .object sup => return isAboveArrays sup
  | .object _, .array _ _ => return false
  | .array i a, .array j b => s.isArrayAssignable a b i j

end HeaderSource

structure Hierarchy where
  find : BinaryName → Option ClassHeader
  bound : Nat
  finite : ∃ names : List BinaryName,
    names.length ≤ bound ∧ ∀ n h, find n = some h → n ∈ names

namespace Hierarchy

def source (h : Hierarchy) : HeaderSource Id := ⟨h.find, h.bound⟩

def isSubclass (h : Hierarchy) (sub sup : BinaryName) : Bool := h.source.isSubclass sub sup

def isAssignable (h : Hierarchy) (sub sup : RefType) : Bool := h.source.isAssignable sub sup

end Hierarchy

end StackMaps
