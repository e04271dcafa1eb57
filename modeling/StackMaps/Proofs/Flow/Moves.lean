import Mathlib.Logic.Relation
import StackMaps.Proofs.Flow.Run

/-! The loop of the analysis in small steps, over any source of class headers. A source can load
classes while it is asked, so what it says need not be a function of the name; `CanReturn` is all
that is used of its answers. Every step but an arrival is a matter of the method alone. -/

namespace StackMaps

open MonadAttach LawfulMonadAttach Relation

section

variable {m : Type → Type} [Monad m] [LawfulMonad m] [MonadAttach m] [LawfulMonadAttach m]
  {ε ε' α β : Type} {a : α} {r : Except ε β}

theorem not_canReturn_throw {e : ε} : ¬ CanReturn (throw e : ExceptT ε m α) a := by
  intro returns
  have same := eq_of_canReturn_pure (m := m) (a := Except.error e) (b := .ok a) returns
  cases same

theorem eq_of_canReturn_ofExcept {x r : Except Error α}
    (returns : CanReturn (ofExcept x : ExceptT Error m α).run r) : x = r :=
  eq_of_canReturn_pure (m := m) (a := x) returns

theorem canReturn_of_adapt {x : ExceptT ε m α} {f : ε → ε'} (returns : CanReturn (x.adapt f) a) :
    CanReturn x a := by
  obtain ⟨result, returns, same⟩ :=
    canReturn_map_imp' (m := m) (x := x.run) (f := Except.mapError f) (b := .ok a) returns
  cases result with
  | error e => cases same
  | ok value =>
    cases same
    exact returns

theorem canReturn_run_bind {x : ExceptT ε m α} {f : α → ExceptT ε m β}
    (returns : CanReturn (x >>= f).run r) :
    (∃ a, CanReturn x.run (.ok a) ∧ CanReturn (f a).run r) ∨
      ∃ e, CanReturn x.run (.error e) ∧ r = .error e := by
  rw [ExceptT.run_bind] at returns
  obtain ⟨first, ran, returns⟩ := canReturn_bind_imp' returns
  cases first with
  | ok a => exact .inl ⟨a, ran, returns⟩
  | error e => exact .inr ⟨e, ran, (eq_of_canReturn_pure returns).symm⟩

end

/-- Where the loop that visits blocks can be. -/
inductive Moment
  /-- Between two visits. -/
  | between (st : FlowState)
  /-- In a block, about to check the first of the instructions that are left with a frame. -/
  | before (b : Block) (f : Frame) (rest : List Located) (st : FlowState)
  /-- Behind an instruction that leads from a frame to another; at these clauses the locals of
  neither have arrived. -/
  | raising (b : Block) (f after : Frame) (rest : List Located) (clauses : List CatchClause)
    (st : FlowState)
  /-- The locals before the instruction have arrived at a clause, those after it have not. -/
  | raised (b : Block) (f after : Frame) (rest : List Located) (c : CatchClause)
    (clauses : List CatchClause) (st : FlowState)
  /-- At the end of a block with a frame that has not arrived at these blocks. -/
  | leaving (b : Block) (f : Frame) (targets : List Nat) (st : FlowState)

def Moment.state : Moment → FlowState
  | between st | before _ _ _ st | raising _ _ _ _ _ st | raised _ _ _ _ _ _ st | leaving _ _ _ st => st

namespace FlowGraph

inductive Moves {m : Type → Type} [Monad m] [MonadAttach m] (s : HeaderSource m) (g : FlowGraph) :
    Moment → Moment → Prop
  | visit {st : FlowState} {start : Nat} {pending : List Nat} {b : Block} {f : Frame}
      (next : st.pending = start :: pending) (block : g.blocks[start]? = some b)
      (entry : st.entry[start]? = some f) :
      Moves s g (.between st) (.before b f b.code { st with pending })
  | skip {st : FlowState} {start : Nat} {pending : List Nat} (next : st.pending = start :: pending)
      (none : g.blocks[start]? = none ∨ st.entry[start]? = none) :
      Moves s g (.between st) (.between { st with pending })
  | check {b : Block} {f after : Frame} {located : Located} {rest : List Located} {st : FlowState}
      (step : g.stepAt located f = .ok after) :
      Moves s g (.before b f (located :: rest) st)
        (.raising b f after rest (g.clauses.filter (·.covers located.offset))
          ((st.see f.height).see after.height))
  | raise {b : Block} {f after : Frame} {rest : List Located} {c : CatchClause}
      {clauses : List CatchClause} {st st' : FlowState}
      (arrives : CanReturn ((st.see 1).arrive s c.target (.atHandler f.locals c.type)) st') :
      Moves s g (.raising b f after rest (c :: clauses) st) (.raised b f after rest c clauses st')
  | raiseAfter {b : Block} {f after : Frame} {rest : List Located} {c : CatchClause}
      {clauses : List CatchClause} {st st' : FlowState}
      (arrives : CanReturn (st.arrive s c.target (.atHandler after.locals c.type)) st') :
      Moves s g (.raised b f after rest c clauses st) (.raising b f after rest clauses st')
  | goOn {b : Block} {f after : Frame} {rest : List Located} {st : FlowState} :
      Moves s g (.raising b f after rest [] st) (.before b after rest st)
  | leave {b : Block} {f : Frame} {st : FlowState} {last : Located} {targets : List Nat}
      (last? : b.code.getLast? = some last) (successors : g.successors last = .ok targets) :
      Moves s g (.before b f [] st) (.leaving b f targets st)
  | pass {b : Block} {f : Frame} {target : Nat} {targets : List Nat} {st st' : FlowState}
      (arrives : CanReturn (st.arrive s target f) st') :
      Moves s g (.leaving b f (target :: targets) st) (.leaving b f targets st')
  | left {b : Block} {f : Frame} {st : FlowState} : Moves s g (.leaving b f [] st) (.between st)
  | empty {b : Block} {f : Frame} {st : FlowState} (none : b.code = []) :
      Moves s g (.before b f [] st) (.between st)

inductive Fails {m : Type → Type} [Monad m] [MonadAttach m] (s : HeaderSource m) (g : FlowGraph) :
    Moment → Error → Prop
  | check {b : Block} {f : Frame} {located : Located} {rest : List Located} {st : FlowState} {e : Error}
      (step : g.stepAt located f = .error e) : Fails s g (.before b f (located :: rest) st) e
  | raise {b : Block} {f after : Frame} {rest : List Located} {c : CatchClause}
      {clauses : List CatchClause} {st : FlowState} {e : Error}
      (arrives : CanReturn ((st.see 1).arrive s c.target (.atHandler f.locals c.type)).run (.error e)) :
      Fails s g (.raising b f after rest (c :: clauses) st) e
  | raiseAfter {b : Block} {f after : Frame} {rest : List Located} {c : CatchClause}
      {clauses : List CatchClause} {st : FlowState} {e : Error}
      (arrives : CanReturn (st.arrive s c.target (.atHandler after.locals c.type)).run (.error e)) :
      Fails s g (.raised b f after rest c clauses st) e
  | leave {b : Block} {f : Frame} {st : FlowState} {last : Located} {e : Error}
      (last? : b.code.getLast? = some last) (successors : g.successors last = .error e) :
      Fails s g (.before b f [] st) e
  | pass {b : Block} {f : Frame} {target : Nat} {targets : List Nat} {st : FlowState} {e : Error}
      (arrives : CanReturn (st.arrive s target f).run (.error e)) :
      Fails s g (.leaving b f (target :: targets) st) e

/-- Where the loop can get to from the entry of the method. -/
def Meets {m : Type → Type} [Monad m] [MonadAttach m] (s : HeaderSource m) (g : FlowGraph)
    (initial : Frame) : Moment → Prop :=
  ReflTransGen (g.Moves s) (.between (.entering initial))

end FlowGraph

variable {m : Type → Type} [Monad m] [LawfulMonad m] [MonadAttach m] [LawfulMonadAttach m]
  {s : HeaderSource m} {g : FlowGraph} {b : Block} {f : Frame} {st : FlowState}

namespace FlowGraph

section

variable {α β : Type} {moment moment' : Moment} {middle : α → Moment} {done : β → Moment}
  {r : Except Error β}

/-- A part of the loop goes in these steps, with this result: from a moment to the one that is
`done` of what it answers, or to one at which it fails. -/
def Runs (s : HeaderSource m) (g : FlowGraph) (moment : Moment) (done : α → Moment) :
    Except Error α → Prop
  | .ok a => ReflTransGen (g.Moves s) moment (done a)
  | .error e => ∃ moment', ReflTransGen (g.Moves s) moment moment' ∧ g.Fails s moment' e

omit [LawfulMonad m] [LawfulMonadAttach m] in
theorem Runs.after (runs : g.Runs s moment' done r) (before : ReflTransGen (g.Moves s) moment moment') :
    g.Runs s moment done r := by
  cases r with
  | ok b => exact before.trans runs
  | error e =>
    obtain ⟨last, moves, fails⟩ := runs
    exact ⟨last, before.trans moves, fails⟩

theorem runs_bind {x : ExceptT Error m α} {k : α → ExceptT Error m β}
    (first : ∀ r, CanReturn x.run r → g.Runs s moment middle r)
    (second : ∀ a, CanReturn (k a).run r → g.Runs s (middle a) done r)
    (returns : CanReturn (x >>= k).run r) : g.Runs s moment done r := by
  obtain ⟨a, ran, returns⟩ | ⟨e, failed, rfl⟩ := canReturn_run_bind returns
  · exact (second a returns).after (first _ ran)
  · exact first _ failed

end

theorem raise_moves {after : Frame} {rest : List Located} {clauses : List CatchClause}
    {r : Except Error FlowState}
    (returns : CanReturn (st.raise s f.locals after.locals clauses).run r) :
    g.Runs s (.raising b f after rest clauses st) (.before b after rest) r := by
  induction clauses generalizing st with
  | nil =>
    cases eq_of_canReturn_pure (m := m) returns
    exact .single .goOn
  | cons c clauses ih =>
    have before (r : Except Error FlowState)
        (arrives : CanReturn ((st.see 1).arrive s c.target (.atHandler f.locals c.type)).run r) :
        g.Runs s (.raising b f after rest (c :: clauses) st) (.raised b f after rest c clauses) r := by
      cases r with
      | ok st' => exact .single (.raise arrives)
      | error e => exact ⟨_, .refl, .raise arrives⟩
    have behind (st : FlowState) (r : Except Error FlowState)
        (arrives : CanReturn (st.arrive s c.target (.atHandler after.locals c.type)).run r) :
        g.Runs s (.raised b f after rest c clauses st) (.raising b f after rest clauses) r := by
      cases r with
      | ok st' => exact .single (.raiseAfter arrives)
      | error e => exact ⟨_, .refl, .raiseAfter arrives⟩
    rw [FlowState.raise] at returns
    exact runs_bind before (fun _ => runs_bind (behind _) fun _ => ih) returns

theorem walk_moves {rest : List Located} {r : Except Error (Frame × FlowState)}
    (returns : CanReturn (g.walk s f st rest).run r) :
    g.Runs s (.before b f rest st) (fun out => .before b out.1 [] out.2) r := by
  induction rest generalizing f st with
  | nil =>
    cases eq_of_canReturn_pure (m := m) returns
    exact .refl
  | cons located rest ih =>
    have check (r : Except Error Frame)
        (stepped : CanReturn (ofExcept (g.stepAt located f) : ExceptT Error m Frame).run r) :
        g.Runs s (.before b f (located :: rest) st) (fun after => .raising b f after rest
          (g.clauses.filter (·.covers located.offset)) ((st.see f.height).see after.height)) r := by
      have step := eq_of_canReturn_ofExcept stepped
      cases r with
      | ok after => exact .single (.check step)
      | error e => exact ⟨_, .refl, .check step⟩
    rw [walk] at returns
    exact runs_bind check (fun _ => runs_bind (fun _ => raise_moves) fun _ => ih) returns

theorem arriveAll_moves {targets : List Nat} {r : Except Error FlowState}
    (returns : CanReturn (FlowState.arriveAll s f st targets).run r) :
    g.Runs s (.leaving b f targets st) .between r := by
  induction targets generalizing st with
  | nil =>
    cases eq_of_canReturn_pure (m := m) returns
    exact .single .left
  | cons target targets ih =>
    have pass (r : Except Error FlowState) (arrives : CanReturn (st.arrive s target f).run r) :
        g.Runs s (.leaving b f (target :: targets) st) (.leaving b f targets) r := by
      cases r with
      | ok st' => exact .single (.pass arrives)
      | error e => exact ⟨_, .refl, .pass arrives⟩
    rw [FlowState.arriveAll] at returns
    exact runs_bind pass (fun _ => ih) returns

theorem visit_moves {r : Except Error FlowState} (returns : CanReturn (g.visit s b f st).run r) :
    g.Runs s (.before b f b.code st) .between r := by
  rw [visit] at returns
  refine runs_bind (fun _ => walk_moves) (fun out returns => ?_) returns
  cases last? : b.code.getLast? with
  | none =>
    simp only [last?] at returns
    cases eq_of_canReturn_pure (m := m) returns
    exact .single (.empty (List.getLast?_eq_none_iff.1 last?))
  | some last =>
    have leave (r : Except Error (List Nat))
        (found : CanReturn (ofExcept (g.successors last) : ExceptT Error m (List Nat)).run r) :
        g.Runs s (.before b out.1 [] out.2) (fun targets => .leaving b out.1 targets out.2) r := by
      have successors := eq_of_canReturn_ofExcept found
      cases r with
      | ok targets => exact .single (.leave last? successors)
      | error e => exact ⟨_, .refl, .leave last? successors⟩
    simp only [last?] at returns
    exact runs_bind leave (fun _ => arriveAll_moves) returns

/-- How the loop ends: nothing waits to be visited, or it is out of visits, or it fails. -/
def Stops (s : HeaderSource m) (g : FlowGraph) (moment : Moment) :
    Except Error (Option FlowState) → Prop
  | .ok (some st) => ReflTransGen (g.Moves s) moment (.between st) ∧ st.pending = []
  | .ok none => ∃ st, ReflTransGen (g.Moves s) moment (.between st) ∧ st.pending ≠ []
  | .error e => ∃ moment', ReflTransGen (g.Moves s) moment moment' ∧ g.Fails s moment' e

omit [LawfulMonad m] [LawfulMonadAttach m] in
theorem Stops.after {moment moment' : Moment} {r : Except Error (Option FlowState)}
    (stops : g.Stops s moment' r) (before : ReflTransGen (g.Moves s) moment moment') :
    g.Stops s moment r := by
  match r, stops with
  | .ok (some _), ⟨moves, done⟩ => exact ⟨before.trans moves, done⟩
  | .ok none, ⟨st, moves, waits⟩ => exact ⟨st, before.trans moves, waits⟩
  | .error _, ⟨last, moves, fails⟩ => exact ⟨last, before.trans moves, fails⟩

/-- Whatever comes of the loop, it goes in these steps until it stops. -/
theorem settle_stops {visits : Nat} {r : Except Error (Option FlowState)}
    (returns : CanReturn (g.settle s visits st).run r) : g.Stops s (.between st) r := by
  induction visits generalizing st with
  | zero =>
    rw [settle] at returns
    have same := eq_of_canReturn_pure (m := m) returns
    split at same
    next none =>
      cases same
      exact ⟨.refl, List.isEmpty_iff.1 none⟩
    next some =>
      cases same
      exact ⟨st, .refl, mt List.isEmpty_iff.2 some⟩
  | succ visits ih =>
    rw [settle.eq_def] at returns
    cases next : st.pending with
    | nil =>
      simp only [next] at returns
      cases eq_of_canReturn_pure (m := m) returns
      exact ⟨.refl, next⟩
    | cons start pending =>
      simp only [next] at returns
      split at returns
      next b f block entry =>
        have visited := ReflTransGen.single (Moves.visit (s := s) next block entry)
        obtain ⟨st', visit, returns⟩ | ⟨e, visit, rfl⟩ := canReturn_run_bind returns
        · exact (ih returns).after (visited.trans (visit_moves visit))
        · obtain ⟨last, moves, fails⟩ := visit_moves visit
          exact ⟨last, visited.trans moves, fails⟩
      next none =>
        refine (ih returns).after (.single (.skip next ?_))
        cases block : g.blocks[start]? with
        | none => exact .inl rfl
        | some b => exact .inr (Option.eq_none_iff_forall_ne_some.2 fun f => none b f block)

theorem settle_moves {visits : Nat} {st' : FlowState}
    (returns : CanReturn (g.settle s visits st) (some st')) :
    ReflTransGen (g.Moves s) (.between st) (.between st') ∧ st'.pending = [] :=
  settle_stops returns

end FlowGraph

namespace Analysis

variable {signature : Signature} {code : Code} {pool : Pool} {a : Analysis}

theorem mapM_clause_of_canReturn {handlers : List Handler} {clauses : List CatchClause}
    (returns : CanReturn (catchClauses s pool handlers) clauses) :
    handlers.mapM (·.clause pool) = .ok clauses := by
  induction handlers generalizing clauses with
  | nil =>
    rw [catchClauses] at returns
    cases eq_of_canReturn_pure returns
    rfl
  | cons h handlers ih =>
    rw [catchClauses] at returns
    obtain ⟨c, first, returns⟩ := canReturn_bind_imp' returns
    obtain ⟨_, _, returns⟩ := canReturn_bind_imp' returns
    obtain ⟨rest, others, returns⟩ := canReturn_bind_imp' returns
    obtain rfl := eq_of_canReturn_pure returns
    rw [List.mapM_cons, eq_of_canReturn_ofExcept first, ih others]
    rfl

structure FoundBy (s : HeaderSource m) (signature : Signature) (code : Code) (pool : Pool)
    (a : Analysis) (g : FlowGraph) (st : FlowState) : Prop where
  holds : code.Holds a.code
  clauses : code.handlers.mapM (·.clause pool) = .ok g.clauses
  graph : g = .ofInstructions signature code pool a.code g.clauses
  initial : signature.initialFrame code.maxLocals = .ok a.initial
  meets : g.Meets s a.initial (.between st)
  settled : st.pending = []
  blocks : a.blocks = code.blocks a.code
  entry : a.entry = st.entry
  maxStack : a.maxStack = st.maxStack

theorem foundBy_of_run (returns : CanReturn (Analysis.run s signature code pool) a) :
    ∃ g st, a.FoundBy s signature code pool g st := by
  rw [run, runWithin] at returns
  obtain ⟨located, holds, returns⟩ := canReturn_bind_imp' returns
  obtain ⟨clauses, caught, returns⟩ := canReturn_bind_imp' returns
  obtain ⟨initial, entered, returns⟩ := canReturn_bind_imp' returns
  obtain ⟨settled, settles, returns⟩ := canReturn_bind_imp' returns
  cases settled with
  | none => exact absurd returns not_canReturn_throw
  | some st =>
    cases eq_of_canReturn_pure returns
    obtain ⟨meets, done⟩ := FlowGraph.settle_moves settles
    exact ⟨_, st, Code.instructions_eq_ok.1 (eq_of_canReturn_ofExcept holds),
      mapM_clause_of_canReturn caught, rfl, eq_of_canReturn_ofExcept entered, meets, done, rfl, rfl, rfl⟩

omit [LawfulMonad m] [LawfulMonadAttach m] in
theorem FoundBy.ofCode {st : FlowState} (found : a.FoundBy s signature code pool g st) :
    FlowGraph.ofCode signature code pool = .ok g :=
  FlowGraph.ofCode_eq_ok.2 ⟨a.code, g.clauses, found.holds, found.clauses, found.graph⟩

end Analysis

end StackMaps
