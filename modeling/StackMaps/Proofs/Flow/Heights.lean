import Mathlib.Order.Bounds.Defs
import StackMaps.Proofs.Flow.Explored
import StackMaps.Proofs.Flow.Shapes
import StackMaps.Proofs.Flow.Whole

/-! The highest stack that the analysis reports is the highest one of the frames that it settles on.
Widths are the same at every visit of an instruction, so no visit has seen a higher stack. -/

namespace StackMaps

open MonadAttach LawfulMonadAttach Relation FlowState

variable {m : Type → Type} [Monad m] [LawfulMonad m] [MonadAttach m] [LawfulMonadAttach m]
  {s : HeaderSource m} {g : FlowGraph} {b : Block} {f out initial : Frame} {st st' : FlowState}
  {moment moment' : Moment} {target : Nat} {entry : Nat → Option Frame} {done rest : List Located}
  {l : Located}

namespace FlowGraph

/-- Control stands in a block, behind `done` and before `rest`, with the frame that comes of the frame
of the block. -/
structure Stands (g : FlowGraph) (entry : Nat → Option Frame) (b : Block) (done rest : List Located)
    (f : Frame) : Prop where
  block : g.blocks[b.start]? = some b
  split : b.code = done ++ rest
  follow : ∃ f₀, entry b.start = some f₀ ∧ g.follow f₀ done = .ok f

def Computes (g : FlowGraph) (entry : Nat → Option Frame) (l : Located) (before after : Frame) : Prop :=
  ∃ b done rest, g.Stands entry b done (l :: rest) before ∧ g.stepAt l before = .ok after

/-- The heights of stacks before and after instructions, and that of the stack of a handler where an
instruction is covered by one. -/
def heights (g : FlowGraph) (entry : Nat → Option Frame) : Set Nat :=
  {height | ∃ l before after, g.Computes entry l before after ∧
    (height = before.height ∨ height = after.height ∨
      height = 1 ∧ ∃ c ∈ g.clauses, c.covers l.offset = true)}

theorem Stands.goOn {after : Frame} (stands : g.Stands entry b done (l :: rest) f)
    (step : g.stepAt l f = .ok after) : g.Stands entry b (done ++ [l]) rest after where
  block := stands.block
  split := by rw [stands.split, List.append_assoc]; rfl
  follow := by
    obtain ⟨f₀, there, follow⟩ := stands.follow
    exact ⟨f₀, there, follow_append.2 ⟨f, follow, follow_cons.2 ⟨after, step, rfl⟩⟩⟩

theorem raises_append (follow : g.follow f done = .ok out) {sent : Frame}
    (raises : g.Raises out rest target sent) : g.Raises f (done ++ rest) target sent := by
  induction done generalizing f with
  | nil =>
    cases follow
    exact raises
  | cons l done ih =>
    obtain ⟨after, step, follow⟩ := follow_cons.1 follow
    exact .later step (ih follow)

namespace IsSolution

variable {le : Frame → Frame → Prop}

theorem exists_step (solution : g.IsSolution le initial entry)
    (stands : g.Stands entry b done (l :: rest) f) : ∃ after, g.stepAt l f = .ok after := by
  obtain ⟨f₀, there, follow⟩ := stands.follow
  obtain ⟨out, _, passes⟩ := solution.passes _ b f₀ stands.block there
  obtain ⟨f', follow', rest⟩ := follow_append.1 (stands.split ▸ passes.follow)
  cases follow.symm.trans follow'
  obtain ⟨after, step, _⟩ := follow_cons.1 rest
  exact ⟨after, step⟩

theorem exists_stands (solution : g.IsSolution le initial entry) {f₀ : Frame}
    (block : g.blocks[b.start]? = some b) (there : entry b.start = some f₀)
    (split : b.code = done ++ rest) : ∃ f, g.Stands entry b done rest f := by
  obtain ⟨out, _, passes⟩ := solution.passes _ b f₀ block there
  obtain ⟨f, follow, _⟩ := follow_append.1 (split ▸ passes.follow)
  exact ⟨f, block, split, f₀, there, follow⟩

theorem handler (solution : g.IsSolution Frame.SameWidths initial entry)
    (stands : g.Stands entry b done (l :: rest) f) {c : CatchClause} (clause : c ∈ g.clauses)
    (covers : c.covers l.offset = true) (locals : List FlowType) :
    ∃ f', entry c.target = some f' ∧ (Frame.atHandler locals c.type).SameWidths f' := by
  obtain ⟨after, step⟩ := solution.exists_step stands
  obtain ⟨f₀, there, follow⟩ := stands.follow
  have raises : g.Raises f₀ (done ++ l :: rest) c.target (.atHandler f.locals c.type) :=
    raises_append follow (.before step clause covers)
  obtain ⟨f', there', same⟩ :=
    solution.flows _ b f₀ stands.block there _ _ (.raises (stands.split ▸ raises))
  exact ⟨f', there', same⟩

end IsSolution

structure Tallies (g : FlowGraph) (entry : Nat → Option Frame) (st : FlowState) : Prop where
  widths : ∀ (n : Nat) (f : Frame), st.entry[n]? = some f → ∃ f', entry n = some f' ∧ f.SameWidths f'
  maxStack : st.maxStack = 0 ∨ st.maxStack ∈ g.heights entry

theorem Tallies.see {height : Nat} (tallies : g.Tallies entry st) (there : height ∈ g.heights entry) :
    g.Tallies entry (st.see height) where
  widths := tallies.widths
  maxStack := by
    rw [FlowState.see, Nat.max_def]
    split
    · exact .inr there
    · exact tallies.maxStack

theorem Tallies.arrive (tallies : g.Tallies entry st)
    (sent : ∃ f', entry target = some f' ∧ out.SameWidths f')
    (arrives : CanReturn (st.arrive s target out) st') : g.Tallies entry st' := by
  have assigned {f : Frame} (same : f.SameWidths out) : g.Tallies entry (st.assign target f) := by
    refine ⟨fun n f' there => ?_, tallies.maxStack⟩
    rw [getElem?_assign] at there
    split at there
    next here =>
      cases there
      obtain ⟨f', there', widths⟩ := sent
      exact ⟨f', here ▸ there', same.trans widths⟩
    next => exact tallies.widths n f' there
  obtain ⟨_, rfl⟩ | ⟨_, merged, _, merges, ⟨_, rfl⟩ | ⟨_, rfl⟩⟩ := arrive_returns arrives
  · exact assigned rfl
  · exact tallies
  · exact assigned (Frame.widths_of_merge merges).2.symm

def HasStepped (g : FlowGraph) (entry : Nat → Option Frame) (b : Block) (after : Frame)
    (rest : List Located) (clauses : List CatchClause) : Prop :=
  ∃ done l before after', g.Stands entry b done (l :: rest) before ∧ g.stepAt l before = .ok after' ∧
    after.SameWidths after' ∧ ∀ c ∈ clauses, c ∈ g.clauses ∧ c.covers l.offset = true

section

variable {after : Frame} {c : CatchClause} {clauses : List CatchClause}

theorem HasStepped.fewer (stepped : g.HasStepped entry b after rest (c :: clauses)) :
    g.HasStepped entry b after rest clauses := by
  obtain ⟨done, l, before, after', stands, step, same, covered⟩ := stepped
  exact ⟨done, l, before, after', stands, step, same, (List.forall_mem_cons.1 covered).2⟩

theorem HasStepped.caught (stepped : g.HasStepped entry b after rest (c :: clauses)) :
    1 ∈ g.heights entry := by
  obtain ⟨done, l, before, after', stands, step, _, covered⟩ := stepped
  obtain ⟨clause, covers⟩ := covered c List.mem_cons_self
  exact ⟨l, before, after', ⟨b, done, rest, stands, step⟩, .inr (.inr ⟨rfl, c, clause, covers⟩)⟩

theorem HasStepped.handler (stepped : g.HasStepped entry b after rest (c :: clauses))
    (solution : g.IsSolution Frame.SameWidths initial entry) (locals : List FlowType) :
    ∃ f', entry c.target = some f' ∧ (Frame.atHandler locals c.type).SameWidths f' := by
  obtain ⟨done, l, before, after', stands, _, _, covered⟩ := stepped
  obtain ⟨clause, covers⟩ := covered c List.mem_cons_self
  exact solution.handler stands clause covers locals

end

def Conforms (g : FlowGraph) (entry : Nat → Option Frame) : Moment → Prop
  | .between st => g.Tallies entry st
  | .before b f rest st => g.Tallies entry st ∧ ∃ done f', g.Stands entry b done rest f' ∧ f.SameWidths f'
  | .raising b _ after rest clauses st => g.Tallies entry st ∧ g.HasStepped entry b after rest clauses
  | .raised b _ after rest c clauses st =>
    g.Tallies entry st ∧ g.HasStepped entry b after rest (c :: clauses)
  | .leaving _ f targets st => g.Tallies entry st ∧
      ∀ t ∈ targets, ∃ f', entry t = some f' ∧ f.SameWidths f'

theorem conforms_move (closed : g.IsClosed) (solution : g.IsSolution Frame.SameWidths initial entry)
    (move : g.Moves s moment moment') (conforms : g.Conforms entry moment) :
    g.Conforms entry moment' := by
  cases move with
  | visit next block there =>
    obtain rfl := closed.start _ _ block
    obtain ⟨f', there', same⟩ := conforms.widths _ _ there
    exact ⟨⟨conforms.widths, conforms.maxStack⟩, [], f', ⟨block, rfl, f', there', rfl⟩, same⟩
  | skip => exact ⟨conforms.widths, conforms.maxStack⟩
  | check step =>
    obtain ⟨tallies, done, f', stands, same⟩ := conforms
    obtain ⟨after', step'⟩ := solution.exists_step stands
    have same' := Frame.step_widths (stepAt_eq_ok.1 step) (stepAt_eq_ok.1 step') same
    have computes : g.Computes entry _ f' after' := ⟨_, done, _, stands, step'⟩
    refine ⟨(tallies.see ⟨_, f', after', computes, .inl same.height_eq⟩).see
      ⟨_, f', after', computes, .inr (.inl (Frame.SameWidths.height_eq same'))⟩,
      done, _, f', after', stands, step', same', fun c there => ?_⟩
    exact List.mem_filter.1 there
  | raise arrives =>
    obtain ⟨tallies, stepped⟩ := conforms
    exact ⟨(tallies.see stepped.caught).arrive (stepped.handler solution _) arrives, stepped⟩
  | raiseAfter arrives =>
    obtain ⟨tallies, stepped⟩ := conforms
    exact ⟨tallies.arrive (stepped.handler solution _) arrives, stepped.fewer⟩
  | goOn =>
    obtain ⟨tallies, done, l, before, after', stands, step', same, _⟩ := conforms
    exact ⟨tallies, _, after', stands.goOn step', same⟩
  | leave last? successors =>
    obtain ⟨tallies, done, f', stands, same⟩ := conforms
    refine ⟨tallies, fun t there => ?_⟩
    obtain ⟨f₀, entered, follow⟩ := stands.follow
    have whole := stands.split
    rw [List.append_nil] at whole
    obtain ⟨f'', there', same'⟩ := solution.flows _ _ f₀ stands.block entered t f'
      (.leaves ⟨whole ▸ follow, _, last?, successors⟩ there)
    exact ⟨f'', there', same.trans same'⟩
  | pass arrives =>
    obtain ⟨tallies, sent⟩ := conforms
    obtain ⟨first, sent⟩ := List.forall_mem_cons.1 sent
    exact ⟨tallies.arrive first arrives, sent⟩
  | left | empty => exact conforms.1

/-- At all times frames have the widths of a solution, and no stack was higher than those of the
solution. -/
theorem conforms_of_meets (closed : g.IsClosed)
    (solution : g.IsSolution Frame.SameWidths initial entry) (meets : g.Meets s initial moment) :
    g.Conforms entry moment := by
  induction meets with
  | refl =>
    refine ⟨fun n f there => ?_, .inl rfl⟩
    rw [getElem?_entering] at there
    split at there
    next here =>
      cases there
      exact here ▸ solution.start
    next => cases there
  | tail _ move ih => exact conforms_move closed solution move ih

end FlowGraph

namespace Analysis

variable {signature : Signature} {code : Code} {pool : Pool} {a : Analysis}

theorem Explored.place_unique (explored : a.Explored signature code pool g) {b' : Block}
    {done' rest' : List Located} (block : g.blocks[b.start]? = some b)
    (block' : g.blocks[b'.start]? = some b') (split : b.code = done ++ l :: rest)
    (split' : b'.code = done' ++ l :: rest') : b = b' ∧ done = done' := by
  obtain ⟨member, _⟩ := explored.getElem?_blocks.1 block
  obtain ⟨member', _⟩ := explored.getElem?_blocks.1 block'
  have inside := explored.bounds member (l := l) (by rw [split]; simp)
  have inside' := explored.bounds member' (l := l) (by rw [split']; simp)
  have within : b.start ≤ l.offset ∧ l.offset < b.stop := by omega
  have within' : b'.start ≤ l.offset ∧ l.offset < b'.stop := by omega
  obtain rfl := explored.block_unique member member' within within'
  obtain ⟨_, _, _, decodes⟩ := explored.decodes member
  have ordered := decodes.pairwise
  rw [split] at ordered
  obtain ⟨_, behind, before⟩ := List.pairwise_append.1 ordered
  have notBefore : l ∉ done := fun there => by
    have := before l there l List.mem_cons_self
    omega
  have notBehind : l ∉ rest := fun there => by
    have := (List.pairwise_cons.1 behind).1 l there
    omega
  exact ⟨rfl, ((List.append_cons_inj_of_notMem notBefore notBehind).1 (split.symm.trans split')).1⟩

theorem FoundBy.reaches_iff (found : a.FoundBy s signature code pool g st) {start : Nat}
    (block : g.blocks[start]? = some b) (there : l ∈ b.code) :
    g.Reaches start ↔ ∃ before after, g.Computes (fun n => a.entry[n]?) l before after := by
  obtain rfl := (FlowGraph.isClosed_of_ofCode found.ofCode).start _ _ block
  obtain ⟨done, rest, split⟩ := List.append_of_mem there
  constructor
  · intro reaches
    obtain ⟨f₀, entry⟩ := found.entry_iff.2 reaches
    obtain ⟨before, stands⟩ := found.isSolution.exists_stands block entry split
    obtain ⟨after, step⟩ := found.isSolution.exists_step stands
    exact ⟨before, after, b, done, rest, stands, step⟩
  · rintro ⟨before, after, b', done', rest', stands, _⟩
    obtain ⟨rfl, _⟩ := found.explored.place_unique block stands.block split stands.split
    obtain ⟨f₀, entry, _⟩ := stands.follow
    exact found.entry_iff.1 ⟨f₀, entry⟩

theorem FoundBy.heights_le (found : a.FoundBy s signature code pool g st) {height : Nat}
    (there : height ∈ g.heights fun n => a.entry[n]?) : height ≤ a.maxStack := by
  obtain ⟨l, before, after, ⟨b, done, rest, stands, step⟩, way⟩ := there
  obtain ⟨f₀, entry, follow⟩ := stands.follow
  obtain ⟨_, _, _, gone, _⟩ := found.isLeft stands.block entry
  obtain ⟨below, below'⟩ := gone.seen done l rest before after stands.split follow step
  rw [found.maxStack]
  obtain rfl | rfl | ⟨rfl, c, clause, covers⟩ := way
  · exact below
  · exact below'
  · exact (gone.handled l (by rw [stands.split]; simp) c clause covers).1

theorem FoundBy.isGreatest (found : a.FoundBy s signature code pool g st) :
    IsGreatest (g.heights fun n => a.entry[n]?) a.maxStack := by
  have closed := FlowGraph.isClosed_of_ofCode found.ofCode
  refine ⟨?_, fun height there => found.heights_le there⟩
  obtain none | there :=
    (FlowGraph.conforms_of_meets closed found.isSolution found.meets : g.Tallies _ st).maxStack
  · -- the stack before the first instruction is not higher
    obtain ⟨b, block⟩ := closed.first
    obtain ⟨l, rest, code⟩ := List.exists_cons_of_ne_nil (closed.nonempty 0 b block)
    obtain ⟨before, after, computes⟩ := (found.reaches_iff block (code ▸ List.mem_cons_self)).1 .refl
    have there : before.height ∈ g.heights fun n => a.entry[n]? := ⟨l, before, after, computes, .inl rfl⟩
    have lowest := found.heights_le there
    rw [found.maxStack, none] at lowest
    rw [found.maxStack, none, ← Nat.le_zero.1 lowest]
    exact there
  · rw [found.maxStack]
    exact there

/-- Widths are those of the frames that the analysis settles on, at every visit of an instruction, and
the highest stack reported is the highest one before or after an instruction that control gets to, or
that of a handler of one. -/
theorem maxStack_exact (returns : CanReturn (Analysis.run s signature code pool) a) :
    ∃ g, FlowGraph.ofCode signature code pool = .ok g ∧
      (∀ (start : Nat) b l, g.blocks[start]? = some b → l ∈ b.code →
        (g.Reaches start ↔ ∃ before after, g.Computes (fun n => a.entry[n]?) l before after)) ∧
      (∀ b f l rest st, g.Meets s a.initial (.before b f (l :: rest) st) →
        (∃ before after, g.Computes (fun n => a.entry[n]?) l before after) ∧
        ∀ before after, g.Computes (fun n => a.entry[n]?) l before after → f.widths = before.widths) ∧
      IsGreatest (g.heights fun n => a.entry[n]?) a.maxStack := by
  obtain ⟨g, st, found⟩ := foundBy_of_run returns
  have closed := FlowGraph.isClosed_of_ofCode found.ofCode
  refine ⟨g, found.ofCode, fun _ _ _ => found.reaches_iff, fun b f l rest st meets => ?_,
    found.isGreatest⟩
  obtain ⟨_, done, f', stands, same⟩ := FlowGraph.conforms_of_meets closed found.isSolution meets
  obtain ⟨after', step⟩ := found.isSolution.exists_step stands
  refine ⟨⟨f', after', b, done, rest, stands, step⟩, fun before after ⟨b', done', rest', stands', _⟩ => ?_⟩
  obtain ⟨rfl, rfl⟩ :=
    found.explored.place_unique stands.block stands'.block stands.split stands'.split
  obtain ⟨f₀, entry, follow⟩ := stands.follow
  obtain ⟨f₀', entry', follow'⟩ := stands'.follow
  cases entry.symm.trans entry'
  cases follow.symm.trans follow'
  exact same

theorem maxStack_exact_copy : ∃ a g,
    CanReturn (Analysis.run (ClassGraph.standard.hierarchy .empty).source copySignature copyCode .empty) a ∧
    FlowGraph.ofCode copySignature copyCode .empty = .ok g ∧
    IsGreatest (g.heights fun n => a.entry[n]?) 2 := by
  have facts : (do
      let a ← answer
        (Analysis.run (ClassGraph.standard.hierarchy .empty).source copySignature copyCode .empty)
      return a.maxStack = 2 : Except Error Bool) = .ok true := by
    decide +kernel
  obtain ⟨a, returns, facts⟩ := bind_eq_ok.1 facts
  have highest := of_decide_eq_true (Except.ok.inj facts)
  have returns : CanReturn
      (Analysis.run (ClassGraph.standard.hierarchy .empty).source copySignature copyCode .empty) a := returns
  obtain ⟨g, ready, _, _, greatest⟩ := maxStack_exact returns
  exact ⟨a, g, returns, ready, highest ▸ greatest⟩

end Analysis

end StackMaps
