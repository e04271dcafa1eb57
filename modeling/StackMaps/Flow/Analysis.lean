import Std.Data.TreeMap
import StackMaps.Flow.Block
import StackMaps.Frame.Transfer

/-!
The data flow analysis of a method. Every block that control can reach gets the most specific frame
that covers what arrives at its start; blocks are visited, lowest first, until no frame changes.
-/

namespace StackMaps

/-- What a method is besides its code. -/
structure Signature where
  owner : BinaryName
  name : String
  descriptor : MethodDescriptor
  isStatic : Bool

namespace Signature

/-- What the receiver is on entry: under construction in a constructor, other than that of
`java/lang/Object`. -/
def receiver (s : Signature) : FlowType :=
  if s.name = "<init>" ∧ s.owner ≠ .object then .uninitializedThis else .object (.object s.owner)

def slotsOf (t : FlowType) : List FlowType := if width t = 2 then [t, .top] else [t]

def entrySlots (s : Signature) : List FlowType :=
  (if s.isStatic then [] else [s.receiver]) ++
    s.descriptor.parameters.flatMap fun t => slotsOf (.ofField t)

def initialFrame (s : Signature) (maxLocals : UInt16) : Except Error Frame :=
  let slots := s.entrySlots
  if maxLocals.toNat < slots.length then
    .error (.type 0 .methodEntry (.invalidSlot maxLocals))
  else .ok ⟨slots ++ List.replicate (maxLocals.toNat - slots.length) .top, []⟩

end Signature

structure CatchClause where
  start : Nat
  stop : Nat
  target : Nat
  type : RefType
deriving DecidableEq

def CatchClause.covers (c : CatchClause) (offset : Nat) : Bool :=
  c.start ≤ offset && offset < c.stop

namespace Handler

/-- The offset that makes a handler useless for code of `length` bytes: its range has to be from
one instruction to another or the end, and it has to lead to an instruction. -/
def badOffset? (h : Handler) (starts : Std.TreeSet Nat) (length : Nat) : Option Nat :=
  let start := h.start.toNat
  let stop := h.stop.toNat
  if !starts.contains start || stop ≤ start then some start
  else if length < stop || (stop ≠ length && !starts.contains stop) then some stop
  else if !starts.contains h.target.toNat then some h.target.toNat
  else none

def fault? (handlers : List Handler) (starts : Std.TreeSet Nat) (length : Nat) :
    Option CodeError :=
  handlers.findSome? fun h =>
    (h.badOffset? starts length).map fun (bad : Nat) => ⟨h.start.toNat, .badBranchTarget bad⟩

def caught (h : Handler) (pool : Pool) : Except Error RefType :=
  match h.catchType with
  | none => .ok (.object .throwable)
  | some i => pool.classType i

def clause (pool : Pool) (h : Handler) : Except Error CatchClause := do
  let type ← h.caught pool
  return ⟨h.start.toNat, h.stop.toNat, h.target.toNat, type⟩

end Handler

namespace Code

def instructions (code : Code) : Except Error (List Located) := do
  let located ← (Instruction.decodeAll code.bytes).mapError .code
  match Handler.fault? code.handlers (Instruction.starts located) code.bytes.length with
  | some e => throw (.code e)
  | none => return located

def blocks (code : Code) (located : List Located) : List Block :=
  let length := code.bytes.length
  Block.split (Block.leaders located code.handlers length) length located

end Code

/-- A method made ready for the data flow. Blocks are found by their start. -/
structure FlowGraph where
  context : MethodContext
  length : Nat
  blocks : Std.TreeMap Nat Block
  clauses : List CatchClause

def FlowGraph.ofInstructions (signature : Signature) (code : Code) (pool : Pool)
    (located : List Located) (clauses : List CatchClause) : FlowGraph where
  context := ⟨pool, .object signature.owner, signature.descriptor.result⟩
  length := code.bytes.length
  blocks := (code.blocks located).foldl (fun index b => index.insert b.start b) ∅
  clauses := clauses

/-- The frames found so far, by the start of their block, the blocks to be visited, lowest first,
and the highest stack seen. -/
structure FlowState where
  entry : Std.TreeMap Nat Frame
  pending : List Nat
  maxStack : Nat

def insertSorted (n : Nat) : List Nat → List Nat
  | [] => [n]
  | k :: ks =>
    if n < k then n :: k :: ks
    else if n = k then k :: ks
    else k :: insertSorted n ks

namespace FlowState

def entering (initial : Frame) : FlowState := ⟨(∅ : Std.TreeMap Nat Frame).insert 0 initial, [0], 0⟩

def see (height : Nat) (st : FlowState) : FlowState :=
  { st with maxStack := max st.maxStack height }

def assign (target : Nat) (f : Frame) (st : FlowState) : FlowState :=
  { st with entry := st.entry.insert target f, pending := insertSorted target st.pending }

variable {m : Type → Type} [Monad m]

/-- Lets a frame arrive at a block, which has to be visited again if its frame changes. -/
def arrive (s : HeaderSource m) (target : Nat) (incoming : Frame) (st : FlowState) :
    ExceptT Error m FlowState :=
  match st.entry[target]? with
  | none => return st.assign target incoming
  | some existing => do
    let merged ← Frame.merge s target existing incoming
    return if merged = existing then st else st.assign target merged

/-- Lets the locals before and after an instruction arrive at the clauses that cover it. -/
def raise (s : HeaderSource m) (before after : List FlowType) (st : FlowState) :
    List CatchClause → ExceptT Error m FlowState
  | [] => return st
  | c :: cs => do
    let st := st.see 1
    let st ← arrive s c.target (.atHandler before c.type) st
    let st ← arrive s c.target (.atHandler after c.type) st
    raise s before after st cs

def arriveAll (s : HeaderSource m) (f : Frame) (st : FlowState) :
    List Nat → ExceptT Error m FlowState
  | [] => return st
  | target :: targets => do
    let st ← arrive s target f st
    arriveAll s f st targets

end FlowState

namespace FlowGraph

/-- Where control goes from the last instruction of a block; a method has no end to fall off. -/
def successors (g : FlowGraph) (last : Located) : Except Error (List Nat) :=
  let targets := last.instruction.targets
  if last.instruction.fallsThrough then
    if g.length ≤ last.next then
      .error (.type last.offset (.instruction last.instruction) .fallsOffEnd)
    else .ok (targets ++ [last.next])
  else .ok targets

def stepAt (g : FlowGraph) (located : Located) (f : Frame) : Except Error Frame :=
  (f.step g.context located.offset located.instruction).mapError
    (.type located.offset (.instruction located.instruction))

variable {m : Type → Type} [Monad m]

def walk (s : HeaderSource m) (g : FlowGraph) (f : Frame) (st : FlowState) :
    List Located → ExceptT Error m (Frame × FlowState)
  | [] => return (f, st)
  | located :: rest => do
    let after ← ofExcept (g.stepAt located f)
    let st := (st.see f.height).see after.height
    let st ← st.raise s f.locals after.locals (g.clauses.filter (·.covers located.offset))
    walk s g after st rest

def visit (s : HeaderSource m) (g : FlowGraph) (b : Block) (f : Frame) (st : FlowState) :
    ExceptT Error m FlowState := do
  let (f, st) ← g.walk s f st b.code
  match b.code.getLast? with
  | none => return st
  | some last =>
    let targets ← ofExcept (g.successors last)
    st.arriveAll s f targets

/-- Visits pending blocks until there are none. On superclass links that lead in a circle frames can
keep changing, so the visits are counted; out of visits there is no answer. -/
def settle (s : HeaderSource m) (g : FlowGraph) : (visits : Nat) → FlowState →
    ExceptT Error m (Option FlowState)
  | 0, st => return if st.pending.isEmpty then some st else none
  | visits + 1, st =>
    match st.pending with
    | [] => return some st
    | start :: pending => do
      let st := { st with pending }
      match g.blocks[start]?, st.entry[start]? with
      | some b, some f => settle s g visits (← g.visit s b f st)
      | _, _ => settle s g visits st

end FlowGraph

/-- What is known of a method after the analysis. A block without a frame in `entry`, at its
start, is never reached. -/
structure Analysis where
  code : List Located
  blocks : List Block
  entry : Std.TreeMap Nat Frame
  frameTargets : Std.TreeSet Nat
  initial : Frame
  maxStack : Nat

namespace Analysis

section

variable {m : Type → Type} [Monad m]

/-- The clauses of an exception table. That a caught class can be thrown is asked and not insisted
on: asking loads what there is to know about it. -/
def catchClauses (s : HeaderSource m) (pool : Pool) :
    List Handler → ExceptT Error m (List CatchClause)
  | [] => return []
  | h :: hs => do
    let c ← ofExcept (h.clause pool)
    let _ ← (s.isAssignable c.type (.object .throwable) : m Bool)
    let rest ← catchClauses s pool hs
    return c :: rest

def runWithin (visits : Nat) (s : HeaderSource m) (signature : Signature) (code : Code)
    (pool : Pool) : ExceptT Error m Analysis := do
  let located ← ofExcept code.instructions
  let clauses ← catchClauses s pool code.handlers
  let initial ← ofExcept (signature.initialFrame code.maxLocals)
  let g := FlowGraph.ofInstructions signature code pool located clauses
  match ← g.settle s visits (.entering initial) with
  | none => throw (.unsettled visits)
  | some st =>
    return ⟨located, code.blocks located, st.entry,
      Block.frameTargets located code.handlers code.bytes.length, initial, st.maxStack⟩

/-- Visits that are enough where superclass links end. A block is visited once for every change of
its frame; a frame has its locals and at most two stack entries per instruction, and each of them
can only lose dimensions, go up to a superclass, or become unusable. -/
def visitsNeeded (classes : Nat) (signature : Signature) (code : Code) (pool : Pool) : Nat :=
  let length := code.bytes.length
  let slots := code.maxLocals.toNat + 2 * length + 1
  let dimensions := signature.descriptor.chars.length + pool.longestText + 1
  length * (1 + slots * (classes + dimensions + 4))

/-- Visits after which a data flow that superclass links lead in a circle is given up. -/
def patience : Nat := 0x10000000000

def visitLimit (s : HeaderSource m) (signature : Signature) (code : Code) (pool : Pool) : Nat :=
  visitsNeeded s.bound signature code pool + patience

def run (s : HeaderSource m) (signature : Signature) (code : Code) (pool : Pool) :
    ExceptT Error m Analysis :=
  runWithin (visitLimit s signature code pool) s signature code pool

end

def entryFrame (a : Analysis) (b : Block) : Option Frame := a.entry[b.start]?

def deadBlocks (a : Analysis) : List Block := a.blocks.filter fun b => (a.entryFrame b).isNone

/-- The frames to be written down, lowest offset first: those that control arrives with where one
is needed, and one for every block that is never reached. -/
def frames (a : Analysis) : List (Nat × Frame) :=
  a.blocks.filterMap fun b =>
    match a.entryFrame b with
    | some f => if a.frameTargets.contains b.start then some (b.start, f) else none
    | none => some (b.start, Frame.dead)

end Analysis

end StackMaps
