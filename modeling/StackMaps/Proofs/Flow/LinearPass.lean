import StackMaps.Proofs.Flow.Run
import StackMaps.Proofs.Frame.Extended

/-! A method is checked against a stack map table in one pass over its instructions: the frame on
which an instruction is checked is the one that the instruction before it leaves, or the one that the
table has for it. -/

namespace StackMaps.FlowGraph

variable {le le' : Frame → Frame → Prop} {g g' : FlowGraph} {table : Nat → Option Frame}
  {current expected : Option Frame} {f out : Frame} {code rest : List Located}

/-- The frame that an instruction is checked on. One that is expected takes over from the current
one, which has to fit it; after an instruction that control does not go on from there is no current
frame. -/
inductive Enters (le : Frame → Frame → Prop) :
    (expected current : Option Frame) → (f : Frame) → Prop
  | fallsInto (f : Frame) : Enters le none (some f) f
  | takesOver {f : Frame} {current : Option Frame} (fits : ∀ arriving, current = some arriving → le arriving f) :
    Enters le (some f) current f

/-- The instruction takes a frame to another one, and what it sends to other places fits what is
expected there. -/
structure Accepts (g : FlowGraph) (le : Frame → Frame → Prop) (table : Nat → Option Frame)
    (located : Located) (f after : Frame) : Prop where
  step : g.stepAt located f = .ok after
  targets : ∀ target ∈ located.instruction.targets, ∃ f', table target = some f' ∧ le after f'
  caught : ∀ c ∈ g.clauses, c.covers located.offset = true → ∃ f', table c.target = some f' ∧
    le (.atHandler f.locals c.type) f' ∧ le (.atHandler after.locals c.type) f'

/-- Instructions are accepted one after the other, and control does not go on after the last. -/
def Checks (g : FlowGraph) (le : Frame → Frame → Prop) (table : Nat → Option Frame) :
    (current : Option Frame) → List Located → Prop
  | current, [] => current = none
  | current, located :: rest => ∃ f after, Enters le (table located.offset) current f ∧
    g.Accepts le table located f after ∧
    Checks g le table (if located.instruction.fallsThrough then some after else none) rest

theorem Enters.imp (imp : ∀ f f', le f f' → le' f f') (enters : Enters le expected current f) :
    Enters le' expected current f := by
  cases enters with
  | fallsInto => exact .fallsInto f
  | takesOver fits => exact .takesOver fun arriving same => imp _ _ (fits arriving same)

theorem Checks.imp (imp : ∀ f f', le f f' → le' f f') (checks : g.Checks le table current code) :
    g.Checks le' table current code := by
  induction code generalizing current with
  | nil => exact checks
  | cons located code ih =>
    obtain ⟨f, after, enters, accepts, checks⟩ := checks
    refine ⟨f, after, enters.imp imp, ⟨accepts.step, ?_, ?_⟩, ih checks⟩
    · intro target member
      obtain ⟨f', there, fits⟩ := accepts.targets target member
      exact ⟨f', there, imp _ _ fits⟩
    · intro c member covers
      obtain ⟨f', there, before, after⟩ := accepts.caught c member covers
      exact ⟨f', there, imp _ _ before, imp _ _ after⟩

variable {R : BinaryName → BinaryName → Prop}

def CoveredBy (g' g : FlowGraph) : Prop :=
  ∀ c' ∈ g'.clauses, ∀ offset, c'.covers offset = true →
    ∃ c ∈ g.clauses, c.covers offset = true ∧ c.target = c'.target ∧ c.type = c'.type

/-- Instructions pass on a frame, only the last of them is a branch, no frame is expected in between,
and what they send to other places is below what is expected there. -/
structure FitsTable (R : BinaryName → BinaryName → Prop) (g : FlowGraph)
    (table : Nat → Option Frame) (f : Frame) (code : List Located) (out : Frame) : Prop where
  passes : g.follow f code = .ok out
  straight : ∀ l ∈ code.dropLast, l.instruction.isBranch = false
  inner : ∀ l ∈ code.tail, table l.offset = none
  caught : ∀ target sent, g.Raises f code target sent →
    ∃ expected, table target = some expected ∧ sent.Below R expected
  targets : ∀ last, code.getLast? = some last → ∀ target ∈ last.instruction.targets,
    ∃ expected, table target = some expected ∧ out.Below R expected

theorem FitsTable.accepts {head : Located} {tail : List Located} {f' : Frame}
    (fits : g.FitsTable R table f (head :: tail) out) (order : IsNameOrder R)
    (extends_ : g'.context.Extends g.context) (covered : g'.CoveredBy g) (below : f'.Below R f) :
    ∃ after after', g.stepAt head f = .ok after ∧ g.follow after tail = .ok out ∧
      after'.Below R after ∧ g'.Accepts (Frame.Below R) table head f' after' := by
  obtain ⟨after, step, passes⟩ := bind_eq_ok.1 fits.passes
  obtain ⟨after', step', below'⟩ := Frame.step_mono_extended extends_ below (stepAt_eq_ok.1 step)
  refine ⟨after, after', step, passes, below', stepAt_eq_ok.2 step', fun target member => ?_,
    fun c' member covers => ?_⟩
  · cases tail with
    | nil =>
      cases passes
      obtain ⟨expected, there, fit⟩ := fits.targets head rfl target member
      exact ⟨expected, there, below'.trans order fit⟩
    | cons second tail =>
      have straight := fits.straight head List.mem_cons_self
      cases same : head.instruction with
      | straight => simp [same, Instruction.targets] at member
      | branch => simp [same, Instruction.isBranch] at straight
  · obtain ⟨c, clause, covers, same, type⟩ := covered c' member head.offset covers
    obtain ⟨expected, there, before⟩ := fits.caught _ _ (.before step clause covers)
    obtain ⟨expected', there', later⟩ := fits.caught _ _ (.after step clause covers)
    cases there.symm.trans there'
    rw [← same, ← type]
    exact ⟨expected, there, (below.atHandler c.type).trans order before,
      (below'.atHandler c.type).trans order later⟩

/-- Instructions that fit a table check from every frame below that they pass on. -/
theorem FitsTable.checks {head : Located} {tail : List Located} {f' : Frame}
    (fits : g.FitsTable R table f (head :: tail) out) (order : IsNameOrder R)
    (extends_ : g'.context.Extends g.context) (covered : g'.CoveredBy g) (below : f'.Below R f)
    (enters : Enters (Frame.Below R) (table head.offset) current f')
    (next : ∀ last out', (head :: tail).getLast? = some last → out'.Below R out →
      g'.Checks (Frame.Below R) table (if last.instruction.fallsThrough then some out' else none) rest) :
    g'.Checks (Frame.Below R) table current (head :: tail ++ rest) := by
  induction tail generalizing head f f' current with
  | nil =>
    obtain ⟨after, after', _, passes, below', accepts⟩ := fits.accepts order extends_ covered below
    cases passes
    exact ⟨f', after', enters, accepts, next head after' rfl below'⟩
  | cons second tail ih =>
    obtain ⟨after, after', step, passes, below', accepts⟩ :=
      fits.accepts order extends_ covered below
    have falls : head.instruction.fallsThrough = true := by
      have straight := fits.straight head List.mem_cons_self
      cases same : head.instruction with
      | straight => rfl
      | branch => simp [same, Instruction.isBranch] at straight
    have later : g.FitsTable R table after (second :: tail) out := {
      passes
      straight := fun l there => fits.straight l (List.mem_cons_of_mem _ there)
      inner := fun l there => fits.inner l (List.mem_cons_of_mem _ there)
      caught := fun target sent raises => fits.caught target sent (.later step raises)
      targets := fun last there => fits.targets last (by rwa [List.getLast?_cons_cons]) }
    refine ⟨f', after', enters, accepts, ?_⟩
    rw [if_pos falls]
    refine ih later below' ?_ fun last out' there => next last out' (by rwa [List.getLast?_cons_cons])
    rw [fits.inner second List.mem_cons_self]
    exact .fallsInto after'

end StackMaps.FlowGraph
