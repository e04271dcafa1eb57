import Mathlib.Logic.Relation
import StackMaps.Flow.Analysis

/-! What it means that frames at the starts of blocks fit the code of a method: every block passes
from its frame on, and what it sends on is below the frames of the blocks it sends it to. -/

namespace StackMaps.FlowGraph

variable (g : FlowGraph)

def follow (f : Frame) : List Located → Except Error Frame
  | [] => .ok f
  | located :: rest => do follow (← g.stepAt located f) rest

/-- What arrives at handlers while instructions are gone through: the locals before and the locals
after each instruction that a handler covers. -/
inductive Raises : Frame → List Located → Nat → Frame → Prop
  | before {f after : Frame} {located : Located} {rest : List Located} {c : CatchClause}
      (step : g.stepAt located f = .ok after) (clause : c ∈ g.clauses)
      (covers : c.covers located.offset = true) :
      Raises f (located :: rest) c.target (.atHandler f.locals c.type)
  | after {f after : Frame} {located : Located} {rest : List Located} {c : CatchClause}
      (step : g.stepAt located f = .ok after) (clause : c ∈ g.clauses)
      (covers : c.covers located.offset = true) :
      Raises f (located :: rest) c.target (.atHandler after.locals c.type)
  | later {f after : Frame} {located : Located} {rest : List Located} {target : Nat} {out : Frame}
      (step : g.stepAt located f = .ok after) (raises : Raises after rest target out) :
      Raises f (located :: rest) target out

structure Passes (b : Block) (f out : Frame) (targets : List Nat) : Prop where
  follow : g.follow f b.code = .ok out
  successors : ∃ last, b.code.getLast? = some last ∧ g.successors last = .ok targets

inductive Sends (b : Block) (f : Frame) : Nat → Frame → Prop
  | raises {target : Nat} {out : Frame} (raises : g.Raises f b.code target out) :
      Sends b f target out
  | leaves {target : Nat} {out : Frame} {targets : List Nat} (passes : g.Passes b f out targets)
      (target_mem : target ∈ targets) : Sends b f target out

/-- Frames at the starts of some blocks that the data flow does not lead out of. -/
structure IsSolution (le : Frame → Frame → Prop) (initial : Frame)
    (entry : Nat → Option Frame) : Prop where
  start : ∃ f, entry 0 = some f ∧ le initial f
  isBlock : ∀ start f, entry start = some f → ∃ b, g.blocks[start]? = some b
  passes : ∀ start b f, g.blocks[start]? = some b → entry start = some f →
    ∃ out targets, g.Passes b f out targets
  flows : ∀ start b f, g.blocks[start]? = some b → entry start = some f →
    ∀ target out, g.Sends b f target out → ∃ f', entry target = some f' ∧ le out f'

/-- Control can get from the block at `start` to `target` by a jump, by going on, or through a
handler. -/
def Leads (start target : Nat) : Prop :=
  ∃ b, g.blocks[start]? = some b ∧
    ((∃ last, b.code.getLast? = some last ∧ (target ∈ last.instruction.targets ∨
      last.instruction.fallsThrough = true ∧ target = last.next)) ∨
    ∃ located ∈ b.code, ∃ c ∈ g.clauses, c.covers located.offset = true ∧ target = c.target)

def Reaches : Nat → Prop := Relation.ReflTransGen g.Leads 0

end StackMaps.FlowGraph
