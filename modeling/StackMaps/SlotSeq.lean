/-!
Sequences addressed by slots: the offset of an element is the start of the sequence plus the
widths of the elements before it. Constant pools are addressed this way from 1, locals and operand
stacks from 0.
-/

namespace StackMaps

/-- How many consecutive slots a value takes up. -/
class SlotWidth (α : Type) where
  width : α → Nat

export SlotWidth (width)

def totalWidth {α : Type} [SlotWidth α] : List α → Nat
  | [] => 0
  | x :: xs => width x + totalWidth xs

/-- Every element is kept with its offset, and `next` is the offset of the next one pushed. -/
structure SlotSeq (α : Type) where
  start : Nat
  entries : Array (Nat × α)
  next : Nat
deriving DecidableEq, Repr

/-- What a slot holds: the first slot of an element, a slot inside the element before this index,
or nothing. -/
inductive SlotLookup (α : Type)
  | found (index : Nat) (x : α)
  | inside (index : Nat)
  | beyond
deriving DecidableEq, Repr

def SlotLookup.toOption {α : Type} : SlotLookup α → Option α
  | found _ x => some x
  | inside _ | beyond => none

/-- A walk over elements from both ends: how many have been passed in front, and the entries that are
left. -/
structure SlotWalk (α : Type) where
  passed : Nat
  left : List (Nat × α)
deriving DecidableEq, Repr

namespace SlotWalk

variable {α : Type}

def next? : SlotWalk α → Option ((Nat × Nat × α) × SlotWalk α)
  | ⟨_, []⟩ => none
  | ⟨passed, (offset, x) :: left⟩ => some ((offset, passed, x), ⟨passed + 1, left⟩)

/-- The last element that is left. Its index is told from the number of those before it. -/
def nextBack? (w : SlotWalk α) : Option ((Nat × Nat × α) × SlotWalk α) :=
  w.left.getLast?.map fun (offset, x) =>
    let left := w.left.dropLast
    ((offset, w.passed + left.length, x), ⟨w.passed, left⟩)

inductive Side
  | front
  | back
deriving DecidableEq, Repr

def take? (w : SlotWalk α) : Side → Option ((Nat × Nat × α) × SlotWalk α)
  | .front => w.next?
  | .back => w.nextBack?

structure Taken (α : Type) where
  fronts : List (Nat × Nat × α)
  backs : List (Nat × Nat × α)
  rest : SlotWalk α
deriving DecidableEq, Repr

def takeAll (w : SlotWalk α) : List Side → Taken α
  | [] => ⟨[], [], w⟩
  | side :: sides =>
    match w.take? side with
    | none => ⟨[], [], w⟩
    | some (item, rest) =>
      let taken := rest.takeAll sides
      match side with
      | .front => { taken with fronts := item :: taken.fronts }
      | .back => { taken with backs := item :: taken.backs }

end SlotWalk

namespace SlotSeq

variable {α : Type}

def startingAt (start : Nat) : SlotSeq α := ⟨start, #[], start⟩

def size (s : SlotSeq α) : Nat := s.entries.size

def isEmpty (s : SlotSeq α) : Bool := s.entries.isEmpty

def push [SlotWidth α] : SlotSeq α → α → SlotSeq α
  | ⟨start, entries, next⟩, x => ⟨start, entries.push (next, x), next + width x⟩

def append [SlotWidth α] (s : SlotSeq α) (xs : List α) : SlotSeq α :=
  xs.foldl push s

def pop? (s : SlotSeq α) : Option ((Nat × Nat × α) × SlotSeq α) :=
  s.entries.back?.map fun (offset, x) =>
    ((offset, s.size - 1, x), { s with entries := s.entries.pop, next := offset })

def last? (s : SlotSeq α) : Option α := s.entries.back?.map (·.2)

def clear (s : SlotSeq α) : SlotSeq α := startingAt s.start

def at? (s : SlotSeq α) (index : Nat) : Option (Nat × α) := s.entries[index]?

def items (s : SlotSeq α) : List (Nat × Nat × α) :=
  s.entries.toList.zipIdx.map fun ((offset, x), index) => (offset, index, x)

def toList (s : SlotSeq α) : List α := s.entries.toList.map (·.2)

def walk (s : SlotSeq α) : SlotWalk α := ⟨0, s.entries.toList⟩

def reversed (s : SlotSeq α) : List (Nat × Nat × α) :=
  (s.walk.takeAll (List.replicate s.size .back)).backs

/-- Number of entries in `lo ..< hi` and before that start at or before `offset`, by bisection:
every entry before `lo` does and none from `hi` on. -/
def rankIn (entries : Array (Nat × α)) (offset : Nat) : (fuel lo hi : Nat) → Nat
  | 0, lo, _ => lo
  | fuel + 1, lo, hi =>
    if lo < hi then
      let mid := (lo + hi) / 2
      match entries[mid]? with
      | some (o, _) =>
        if o ≤ offset then rankIn entries offset fuel (mid + 1) hi
        else rankIn entries offset fuel lo mid
      | none => lo
    else lo

def rank (s : SlotSeq α) (offset : Nat) : Nat :=
  rankIn s.entries offset s.size 0 s.size

def lookup (s : SlotSeq α) (offset : Nat) : SlotLookup α :=
  let after := s.rank offset
  let missed := if after = s.size then .beyond else .inside after
  match s.entries[after - 1]? with
  | some (o, x) => if after ≠ 0 ∧ o = offset then .found (after - 1) x else missed
  | none => missed

end SlotSeq

end StackMaps
