import StackMaps.Proofs.Frame.Size
import StackMaps.Proofs.Flow.InitialFrame
import StackMaps.Proofs.Flow.Sound

/-! The analysis of a method over a fixed class hierarchy. -/

namespace StackMaps

variable {H : Hierarchy} {P : Frame → Prop} {g : FlowGraph} {signature : Signature} {code : Code}
  {pool : Pool}

namespace FlowGraph

theorem stepAt_eq_ok {located : Located} {f f' : Frame} : g.stepAt located f = .ok f' ↔
    f.step g.context located.offset located.instruction = .ok f' := by
  unfold stepAt
  cases Frame.step g.context located.offset located.instruction f <;> simp [Except.mapError]

structure Preserves (g : FlowGraph) (P : Frame → Prop) : Prop where
  step : ∀ (start : Nat) (b : Block) located f f', g.blocks[start]? = some b → located ∈ b.code →
    P f → g.stepAt located f = .ok f' → P f'
  caught : ∀ f c, P f → c ∈ g.clauses → P (.atHandler f.locals c.type)

theorem Preserves.and {Q : Frame → Prop} (first : g.Preserves P) (second : g.Preserves Q) :
    g.Preserves fun f => P f ∧ Q f where
  step start b located f f' block there holds ok :=
    ⟨first.step start b located f f' block there holds.1 ok,
      second.step start b located f f' block there holds.2 ok⟩
  caught f c holds clause := ⟨first.caught f c holds.1 clause, second.caught f c holds.2 clause⟩

theorem Sends.carries {b : Block} {f out : Frame} {target : Nat}
    (step : ∀ located ∈ b.code, ∀ f f', P f → g.stepAt located f = .ok f' → P f')
    (caught : ∀ f c, P f → c ∈ g.clauses → P (.atHandler f.locals c.type)) (holds : P f)
    (sends : g.Sends b f target out) : P out := by
  have followed : ∀ (code : List Located) f out, (∀ located ∈ code, located ∈ b.code) → P f →
      g.follow f code = .ok out → P out := by
    intro code
    induction code with
    | nil =>
      intro f out _ holds ok
      cases ok
      exact holds
    | cons located code ih =>
      intro f out within holds ok
      obtain ⟨after, stepped, ok⟩ := bind_eq_ok.1 ok
      obtain ⟨here, within⟩ := List.forall_mem_cons.1 within
      exact ih after out within (step located here f after holds stepped) ok
  have raised : ∀ (code : List Located) f target out, (∀ located ∈ code, located ∈ b.code) → P f →
      g.Raises f code target out → P out := by
    intro code f target out within holds raises
    clear sends
    induction raises with
    | before _ clause _ => exact caught _ _ holds clause
    | after stepped clause _ =>
      exact caught _ _ (step _ (within _ List.mem_cons_self) _ _ holds stepped) clause
    | later stepped _ ih =>
      obtain ⟨here, within⟩ := List.forall_mem_cons.1 within
      exact ih within (step _ here _ _ holds stepped)
  cases sends with
  | raises raises => exact raised b.code f target out (fun _ => id) holds raises
  | leaves passes _ => exact followed b.code f out (fun _ => id) holds passes.follow

theorem Preserves.keeps (preserves : g.Preserves P) : g.Keeps P :=
  fun start b _ _ _ block holds sends =>
    sends.carries (fun located there f f' => preserves.step start b located f f' block there)
      preserves.caught holds

theorem preserves_length (g : FlowGraph) (n : Nat) : g.Preserves fun f => f.locals.length = n where
  step _ _ _ _ _ _ _ same ok := (Frame.step_near (stepAt_eq_ok.1 ok)).locals.trans same
  caught _ _ same _ := same

end FlowGraph

theorem Hierarchy.IsRooted.joins (rooted : H.IsRooted) (n : Nat) :
    H.Joins (fun f => f.locals.length = n) H.Under where
  order := rooted.isUpper.order
  upper offset f g t samef sameg ok := by
    have merges := (Frame.merge_eq_ok (samef.trans sameg.symm)).1 ok
    obtain ⟨below, below'⟩ := merges.below
    exact ⟨merges.locals.length_merged.trans samef, below, below'⟩

def FlowGraph.ofCode (signature : Signature) (code : Code) (pool : Pool) :
    Except Error FlowGraph := do
  let located ← code.instructions
  let clauses ← code.handlers.mapM (·.clause pool)
  return .ofInstructions signature code pool located clauses

theorem FlowGraph.ofCode_eq_ok : FlowGraph.ofCode signature code pool = .ok g ↔
    ∃ located clauses, code.Holds located ∧ code.handlers.mapM (·.clause pool) = .ok clauses ∧
      g = .ofInstructions signature code pool located clauses := by
  simp only [ofCode, bind_eq_ok, Code.instructions_eq_ok]
  constructor
  · rintro ⟨located, holds, clauses, caught, same⟩
    cases same
    exact ⟨located, clauses, holds, caught, rfl⟩
  · rintro ⟨located, clauses, holds, caught, rfl⟩
    exact ⟨located, holds, clauses, caught, rfl⟩

theorem FlowGraph.isClosed_of_ofCode (ok : FlowGraph.ofCode signature code pool = .ok g) :
    g.IsClosed := by
  obtain ⟨located, clauses, holds, caught, rfl⟩ := FlowGraph.ofCode_eq_ok.1 ok
  exact holds.isClosed caught

namespace Analysis

theorem answer_catchClauses (handlers : List Handler) :
    answer (catchClauses H.source pool handlers) = handlers.mapM (·.clause pool) := by
  induction handlers with
  | nil => rfl
  | cons h hs ih =>
    rw [catchClauses, List.mapM_cons, ← ih]
    simp only [answer_bind, answer_ofExcept, answer_pure]
    rfl

theorem answer_runWithin (visits : Nat) :
    answer (runWithin visits H.source signature code pool) = do
      let located ← code.instructions
      let clauses ← code.handlers.mapM (·.clause pool)
      let initial ← signature.initialFrame code.maxLocals
      match ← answer ((FlowGraph.ofInstructions signature code pool located clauses).settle
        H.source visits (.entering initial)) with
      | none => throw (.unsettled visits)
      | some st =>
        return ⟨located, code.blocks located, st.entry,
          Block.frameTargets located code.handlers code.bytes.length, initial, st.maxStack⟩ := by
  simp only [runWithin, answer_bind, answer_ofExcept, answer_catchClauses]
  refine bind_congr fun located => bind_congr fun clauses => bind_congr fun initial =>
    bind_congr fun settled => ?_
  cases settled <;> rfl

/-- What is known of a method after an analysis that succeeds. -/
structure Found (H : Hierarchy) (visits : Nat) (signature : Signature) (code : Code) (pool : Pool)
    (a : Analysis) (g : FlowGraph) (st : FlowState) : Prop where
  holds : code.Holds a.code
  clauses : code.handlers.mapM (·.clause pool) = .ok g.clauses
  graph : g = .ofInstructions signature code pool a.code g.clauses
  initial : signature.initialFrame code.maxLocals = .ok a.initial
  settled : answer (g.settle H.source visits (.entering a.initial)) = .ok (some st)
  blocks : a.blocks = code.blocks a.code
  entry : a.entry = st.entry
  frameTargets : a.frameTargets = Block.frameTargets a.code code.handlers code.bytes.length
  maxStack : a.maxStack = st.maxStack

theorem found_of_runWithin {visits : Nat} {a : Analysis}
    (ok : answer (runWithin visits H.source signature code pool) = .ok a) :
    ∃ g st, a.Found H visits signature code pool g st := by
  rw [answer_runWithin] at ok
  obtain ⟨located, holds, ok⟩ := bind_eq_ok.1 ok
  obtain ⟨clauses, caught, ok⟩ := bind_eq_ok.1 ok
  obtain ⟨initial, entered, ok⟩ := bind_eq_ok.1 ok
  obtain ⟨settled, settles, ok⟩ := bind_eq_ok.1 ok
  cases settled with
  | none => cases ok
  | some st =>
    cases ok
    exact ⟨_, st, Code.instructions_eq_ok.1 holds, caught, rfl, entered, settles, rfl, rfl, rfl, rfl⟩

theorem Found.runWithin {visits : Nat} {a : Analysis} {st : FlowState}
    (found : a.Found H visits signature code pool g st) :
    answer (Analysis.runWithin visits H.source signature code pool) = .ok a := by
  rw [answer_runWithin, Code.instructions_eq_ok.2 found.holds, found.clauses, found.initial]
  have settled := found.settled
  rw [found.graph] at settled
  simp only [bind, Except.bind, settled, ← found.blocks, ← found.entry, ← found.frameTargets,
    ← found.maxStack]
  rfl

theorem Found.ofCode {visits : Nat} {a : Analysis} {st : FlowState}
    (found : a.Found H visits signature code pool g st) :
    FlowGraph.ofCode signature code pool = .ok g :=
  FlowGraph.ofCode_eq_ok.2 ⟨a.code, g.clauses, found.holds, found.clauses, found.graph⟩

end Analysis

theorem Signature.length_initialFrame {maxLocals : UInt16} {initial : Frame}
    (ok : signature.initialFrame maxLocals = .ok initial) :
    initial.locals.length = maxLocals.toNat ∧ initial.stack = [] :=
  have entry := isEntryFrame_of_ok ok
  ⟨entry.length, entry.stack⟩

namespace Analysis

/-- The frames found are a solution of the data flow in any order that merges go up in, and blocks
without one are those that control does not get to. -/
theorem Found.solves {R : BinaryName → BinaryName → Prop} (joins : H.Joins P R) {visits : Nat}
    {a : Analysis} {st : FlowState} (found : a.Found H visits signature code pool g st)
    (keeps : g.Keeps P) (holds : P a.initial) :
    g.IsSolution (Frame.Below R) a.initial (fun n => a.entry[n]?) ∧
      ∀ n : Nat, (∃ f, a.entry[n]? = some f) ↔ g.Reaches n := by
  obtain ⟨sound, done⟩ := FlowGraph.settle_sound (FlowGraph.isClosed_of_ofCode found.ofCode)
    joins keeps holds found.settled
  rw [found.entry]
  have solution := FlowGraph.isSolution_of_sound sound done
  exact ⟨solution, fun n => ⟨fun ⟨f, there⟩ => sound.reaches n f there, solution.entry_of_reaches⟩⟩

theorem Found.sound (rooted : H.IsRooted) {visits : Nat} {a : Analysis} {st : FlowState}
    (found : a.Found H visits signature code pool g st) :
    g.IsSolution (Frame.Below H.Under) a.initial (fun n => a.entry[n]?) ∧
      ∀ n : Nat, (∃ f, a.entry[n]? = some f) ↔ g.Reaches n :=
  found.solves (rooted.joins a.initial.locals.length) (g.preserves_length _).keeps rfl

end Analysis

end StackMaps
