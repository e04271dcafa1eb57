import StackMaps.Hierarchy.StandardClasses

/-!
The classes known so far. A class that is asked for and not known is looked for once, with a class
loader, and what was found, or that nothing was, is kept. On files that do not change the answers
are those of a hierarchy that knew every class from the start.
-/

namespace StackMaps

structure ClassLoader (m : Type → Type) where
  load : BinaryName → m (Option ClassHeader)
  capacity : Nat

/-- A class loader that always finds the same, under the name that was asked for. -/
structure FixedLoader where
  load : BinaryName → Option ClassHeader
  capacity : Nat
  named : ∀ n h, load n = some h → h.name = n
  finite : ∃ names : List BinaryName,
    names.length ≤ capacity ∧ ∀ n h, load n = some h → n ∈ names

namespace FixedLoader

def loader (l : FixedLoader) : ClassLoader Id := ⟨l.load, l.capacity⟩

def empty : FixedLoader where
  load _ := none
  capacity := 0
  named _ _ h := by cases h
  finite := ⟨[], Nat.le_refl 0, fun _ _ h => by cases h⟩

end FixedLoader

/-- Of several known classes with one name the first counts. `missing` are the names for which
nothing was found. -/
structure ClassGraph where
  known : List ClassHeader
  missing : List BinaryName

namespace ClassGraph

def standard : ClassGraph := ⟨StandardClasses.all, []⟩

def knownHeader (g : ClassGraph) (n : BinaryName) : Option ClassHeader :=
  g.known.find? fun h => h.name = n

/-- Makes a class known, unless one of its name is. -/
def insert (g : ClassGraph) (h : ClassHeader) : ClassGraph :=
  match g.knownHeader h.name with
  | some _ => g
  | none => { g with known := g.known ++ [h] }

def insertAll (g : ClassGraph) (headers : List ClassHeader) : ClassGraph := headers.foldl insert g

def learn (g : ClassGraph) (n : BinaryName) : Option ClassHeader → ClassGraph
  | some h => g.insert h
  | none => { g with missing := n :: g.missing }

section

variable {m : Type → Type} [Monad m]

/-- The header of a class, which is loaded if it is not known. -/
def lookup (l : ClassLoader m) (n : BinaryName) : StateT ClassGraph m (Option ClassHeader) :=
  fun g =>
    match g.knownHeader n with
    | some h => return (some h, g)
    | none =>
      if n ∈ g.missing then return (none, g)
      else do
        let found ← l.load n
        return (found, g.learn n found)

def bound (g : ClassGraph) (capacity : Nat) : Nat := g.known.length + capacity

def source (g : ClassGraph) (l : ClassLoader m) : HeaderSource (StateT ClassGraph m) :=
  ⟨lookup l, g.bound l.capacity⟩

end

def header (g : ClassGraph) (l : FixedLoader) (n : BinaryName) : Option ClassHeader :=
  match g.knownHeader n with
  | some h => some h
  | none => if n ∈ g.missing then none else l.load n

def hierarchy (g : ClassGraph) (l : FixedLoader) : Hierarchy where
  find := g.header l
  bound := g.bound l.capacity
  finite := by
    obtain ⟨names, short, complete⟩ := l.finite
    refine ⟨g.known.map (·.name) ++ names, ?_, fun n h found => ?_⟩
    · simp only [List.length_append, List.length_map, bound]
      omega
    · rw [header] at found
      split at found
      · next known =>
        rw [knownHeader] at known
        have name := List.find?_some known
        simp only [decide_eq_true_eq] at name
        exact List.mem_append_left _
          (List.mem_map.2 ⟨_, List.mem_of_find?_eq_some known, name⟩)
      · split at found
        · cases found
        · exact List.mem_append_right _ (complete n h found)

end ClassGraph

end StackMaps
