import StackMaps.Proofs.Flow.Entered
import StackMaps.Proofs.Frame.Widths

/-! The widths that the analysis settles on. A merge leaves the widths of stack entries as they are, so
what a block sends has the widths of the frames that it arrives at. When nothing waits to be visited,
this holds of every block and the very frame that it ends up with, and no stack on the way was higher
than the highest that was seen. -/

namespace StackMaps

open MonadAttach LawfulMonadAttach Relation

def Frame.SameWidths (f f' : Frame) : Prop := f.widths = f'.widths

theorem Frame.SameWidths.height_eq {f f' : Frame} (same : f.SameWidths f') : f.height = f'.height := by
  rw [height_eq_sum, height_eq_sum, same]

variable {m : Type → Type} [Monad m] [LawfulMonad m] [MonadAttach m] [LawfulMonadAttach m]
  {s : HeaderSource m} {g : FlowGraph} {b : Block} {f f₀ out initial : Frame} {st st' : FlowState}
  {moment moment' : Moment} {target n : Nat} {done : List Located}

namespace FlowState

def Arrived (st : FlowState) (target : Nat) (out : Frame) : Prop :=
  ∃ f, st.entry[target]? = some f ∧ out.SameWidths f

structure Builds (st st' : FlowState) : Prop where
  widths : ∀ (n : Nat) (f : Frame), st.entry[n]? = some f → st'.Arrived n f
  maxStack : st.maxStack ≤ st'.maxStack

structure Continues (st st' : FlowState) : Prop extends Builds st st' where
  pending : ∀ n ∈ st.pending, n ∈ st'.pending
  unchanged : ∀ n : Nat, n ∉ st'.pending → st'.entry[n]? = st.entry[n]?

theorem Builds.of_entry (same : st'.entry = st.entry) (higher : st.maxStack ≤ st'.maxStack) :
    Builds st st' :=
  ⟨fun _ f there => ⟨f, by rw [same, there], rfl⟩, higher⟩

theorem Builds.arrived (builds : Builds st st') (arrived : st.Arrived target out) :
    st'.Arrived target out := by
  obtain ⟨f, there, same⟩ := arrived
  obtain ⟨f', there', same'⟩ := builds.widths target f there
  exact ⟨f', there', same.trans same'⟩

theorem continues_see (height : Nat) (st : FlowState) : Continues st (st.see height) :=
  ⟨.of_entry rfl (Nat.le_max_left ..), fun _ => id, fun _ _ => rfl⟩

theorem Continues.trans {st'' : FlowState} (first : Continues st st') (next : Continues st' st'') :
    Continues st st'' where
  widths n f there := next.toBuilds.arrived (first.widths n f there)
  maxStack := Nat.le_trans first.maxStack next.maxStack
  pending n waits := next.pending n (first.pending n waits)
  unchanged n quiet := by
    rw [next.unchanged n quiet, first.unchanged n fun waits => quiet (next.pending n waits)]

theorem continues_assign (same : ∀ f, st.entry[target]? = some f → f.SameWidths out) :
    Continues st (st.assign target out) where
  widths n f there := by
    by_cases here : n = target
    · subst here
      exact ⟨out, by rw [getElem?_assign, if_pos rfl], same f there⟩
    · exact ⟨f, by rw [getElem?_assign, if_neg here, there], rfl⟩
  maxStack := Nat.le_refl _
  pending _ waits := mem_pending_assign.2 (.inr waits)
  unchanged n quiet := by
    rw [getElem?_assign, if_neg fun here => quiet (mem_pending_assign.2 (.inl here))]

/-- A frame that arrives leaves its widths. -/
theorem arrive_continues (arrives : CanReturn (st.arrive s target out) st') :
    Continues st st' ∧ st'.Arrived target out := by
  obtain ⟨none, rfl⟩ | ⟨existing, merged, there, merges, same⟩ := arrive_returns arrives
  · refine ⟨continues_assign fun f there => ?_, out, by rw [getElem?_assign, if_pos rfl], rfl⟩
    rw [none] at there
    cases there
  · obtain ⟨old, new⟩ := Frame.widths_of_merge merges
    obtain ⟨rfl, rfl⟩ | ⟨_, rfl⟩ := same
    · exact ⟨⟨.of_entry rfl (Nat.le_refl _), fun _ => id, fun _ _ => rfl⟩, merged, there, new⟩
    · refine ⟨continues_assign fun f there' => ?_, merged, by rw [getElem?_assign, if_pos rfl], new⟩
      rw [there] at there'
      cases there'
      exact old

def Handled (st : FlowState) (c : CatchClause) : Prop :=
  1 ≤ st.maxStack ∧ ∀ locals, st.Arrived c.target (.atHandler locals c.type)

theorem Builds.handled (builds : Builds st st') {c : CatchClause} (handled : st.Handled c) :
    st'.Handled c :=
  ⟨Nat.le_trans handled.1 builds.maxStack, fun locals => builds.arrived (handled.2 locals)⟩

theorem handled_of_arrived {c : CatchClause} {locals : List FlowType} (seen : 1 ≤ st.maxStack)
    (arrived : st.Arrived c.target (.atHandler locals c.type)) : st.Handled c :=
  ⟨seen, fun _ => arrived⟩

end FlowState

open FlowState

namespace FlowGraph

theorem follow_append {code code' : List Located} : g.follow f (code ++ code') = .ok out ↔
    ∃ f', g.follow f code = .ok f' ∧ g.follow f' code' = .ok out := by
  induction code generalizing f with
  | nil => simp [follow]
  | cons located code ih =>
    simp only [List.cons_append, follow, bind_eq_ok, ih]
    constructor
    · rintro ⟨after, step, f', first, rest⟩
      exact ⟨f', ⟨after, step, first⟩, rest⟩
    · rintro ⟨f', ⟨after, step, first⟩, rest⟩
      exact ⟨after, step, f', first, rest⟩

theorem follow_cons {located : Located} {code : List Located} :
    g.follow f (located :: code) = .ok out ↔
      ∃ after, g.stepAt located f = .ok after ∧ g.follow after code = .ok out := bind_eq_ok

/-- From a frame on these instructions have been gone through: handlers of them have frames, and no
stack before or after one of them was higher than the highest seen. -/
structure Gone (g : FlowGraph) (f : Frame) (done : List Located) (out : Frame) (st : FlowState) :
    Prop where
  follow : g.follow f done = .ok out
  handled : ∀ located ∈ done, ∀ c ∈ g.clauses, c.covers located.offset = true → st.Handled c
  seen : ∀ front located rest before after, done = front ++ located :: rest →
    g.follow f front = .ok before → g.stepAt located before = .ok after →
    before.height ≤ st.maxStack ∧ after.height ≤ st.maxStack

theorem gone_nil (st : FlowState) : g.Gone f [] f st where
  follow := rfl
  handled := nofun
  seen front _ _ _ _ split := by simp at split

theorem Gone.builds (gone : g.Gone f done out st) (builds : Builds st st') : g.Gone f done out st' where
  follow := gone.follow
  handled located there c clause covers := builds.handled (gone.handled located there c clause covers)
  seen front located rest before after split first step :=
    (gone.seen front located rest before after split first step).imp
      (Nat.le_trans · builds.maxStack) (Nat.le_trans · builds.maxStack)

theorem Gone.snoc {located : Located} {after : Frame} (gone : g.Gone f done out st)
    (step : g.stepAt located out = .ok after) (before_seen : out.height ≤ st.maxStack)
    (after_seen : after.height ≤ st.maxStack)
    (handled : ∀ c ∈ g.clauses, c.covers located.offset = true → st.Handled c) :
    g.Gone f (done ++ [located]) after st where
  follow := follow_append.2 ⟨out, gone.follow, follow_cons.2 ⟨after, step, rfl⟩⟩
  handled l there := by
    obtain there | there := List.mem_append.1 there
    · exact gone.handled l there
    · rw [List.mem_singleton.1 there]
      exact handled
  seen front l rest before behind split first step' := by
    -- the instruction is the last one or among those before
    obtain rfl | ⟨rest, last, rfl⟩ := List.eq_nil_or_concat' rest
    · obtain ⟨rfl, same⟩ := List.append_inj' split rfl
      cases same
      rw [gone.follow] at first
      cases first
      rw [step] at step'
      cases step'
      exact ⟨before_seen, after_seen⟩
    · rw [← List.cons_append, ← List.append_assoc] at split
      exact gone.seen front l rest before behind (List.append_inj' split rfl).1 first step'

def IsLeft (g : FlowGraph) (b : Block) (f : Frame) (st : FlowState) : Prop :=
  ∃ out last targets, g.Gone f b.code out st ∧ b.code.getLast? = some last ∧
    g.successors last = .ok targets ∧ ∀ t ∈ targets, st.Arrived t out

/-- All blocks that have a frame have been left from it, wait for a visit, or are `current`. -/
def Complete (g : FlowGraph) (current : Option Nat) (st : FlowState) : Prop :=
  ∀ (n : Nat) (b : Block) (f : Frame), g.blocks[n]? = some b → st.entry[n]? = some f →
    current = some n ∨ n ∈ st.pending ∨ g.IsLeft b f st

theorem IsLeft.builds (left : g.IsLeft b f st) (builds : Builds st st') : g.IsLeft b f st' := by
  obtain ⟨out, last, targets, gone, last?, successors, arrived⟩ := left
  exact ⟨out, last, targets, gone.builds builds, last?, successors, fun t there =>
    builds.arrived (arrived t there)⟩

theorem Complete.continues {current : Option Nat} (complete : g.Complete current st)
    (continues : Continues st st') : g.Complete current st' := by
  intro n b f block there
  by_cases waits : n ∈ st'.pending
  · exact .inr (.inl waits)
  · rw [continues.unchanged n waits] at there
    obtain here | waits | left := complete n b f block there
    · exact .inl here
    · exact .inr (.inl (continues.pending n waits))
    · exact .inr (.inr (left.builds continues.toBuilds))

/-- A visit of a block has gone through these instructions. The visit is from the frame that the block
has, unless it has to be visited again. -/
structure Visits (g : FlowGraph) (b : Block) (f : Frame) (done : List Located) (out : Frame)
    (st : FlowState) : Prop where
  complete : g.Complete (some b.start) st
  current : b.start ∈ st.pending ∨ st.entry[b.start]? = some f
  gone : g.Gone f done out st

theorem Visits.continues (visits : g.Visits b f done out st) (continues : Continues st st') :
    g.Visits b f done out st' where
  complete := visits.complete.continues continues
  current := by
    by_cases waits : b.start ∈ st'.pending
    · exact .inl waits
    · refine .inr ?_
      rw [continues.unchanged _ waits]
      exact visits.current.resolve_left fun before => waits (continues.pending _ before)
  gone := visits.gone.builds continues.toBuilds

def Shapely (g : FlowGraph) : Moment → Prop
  | .between st => g.Complete none st
  | .before b f rest st => ∃ f₀ done, b.code = done ++ rest ∧ g.Visits b f₀ done f st
  | .raising b f after rest clauses st | .raised b f after rest _ clauses st =>
    ∃ f₀ done located, b.code = done ++ located :: rest ∧ g.Visits b f₀ done f st ∧
      g.stepAt located f = .ok after ∧ f.height ≤ st.maxStack ∧ after.height ≤ st.maxStack ∧
      ∀ c ∈ g.clauses, c.covers located.offset = true → c ∈ clauses ∨ st.Handled c
  | .leaving b f targets st => ∃ f₀ last all, g.Visits b f₀ b.code f st ∧ b.code.getLast? = some last ∧
      g.successors last = .ok all ∧ ∀ t ∈ all, t ∈ targets ∨ st.Arrived t f

theorem shapely_move (closed : g.IsClosed) (move : g.Moves s moment moment') (sited : g.Sited moment)
    (shapely : g.Shapely moment) : g.Shapely moment' := by
  cases move with
  | @visit st start pending b f next block entry =>
    obtain rfl := closed.start _ _ block
    have popped : Builds st { st with pending } := .of_entry rfl (Nat.le_refl _)
    refine ⟨f, [], rfl, fun n b' f' block' there => ?_, .inr entry, gone_nil _⟩
    obtain none | waits | left := shapely n b' f' block' there
    · cases none
    · rw [next] at waits
      obtain rfl | waits := List.mem_cons.1 waits
      · exact .inl rfl
      · exact .inr (.inl waits)
    · exact .inr (.inr (left.builds popped))
  | @skip st start pending next none =>
    have popped : Builds st { st with pending } := .of_entry rfl (Nat.le_refl _)
    intro n b f block there
    obtain none | waits | left := shapely n b f block there
    · cases none
    · rw [next] at waits
      obtain rfl | waits := List.mem_cons.1 waits
      · obtain none | none := none
        · cases none.symm.trans block
        · cases none.symm.trans there
      · exact .inr (.inl waits)
    · exact .inr (.inr (left.builds popped))
  | @check b f after located rest st step =>
    obtain ⟨f₀, done, split, visits⟩ := shapely
    have continues := (continues_see f.height st).trans (continues_see after.height _)
    have higher : f.height ≤ ((st.see f.height).see after.height).maxStack :=
      Nat.le_trans (Nat.le_max_right ..) (Nat.le_max_left ..)
    exact ⟨f₀, done, located, split, visits.continues continues, step, higher, Nat.le_max_right ..,
      fun c clause covers => .inl (List.mem_filter.2 ⟨clause, covers⟩)⟩
  | @raise b f after rest c clauses st st' arrives =>
    obtain ⟨f₀, done, located, split, visits, step, before_seen, after_seen, waiting⟩ := shapely
    obtain ⟨arrived, there⟩ := arrive_continues arrives
    have continues := (continues_see 1 st).trans arrived
    have higher := continues.maxStack
    refine ⟨f₀, done, located, split, visits.continues continues, step, Nat.le_trans before_seen higher,
      Nat.le_trans after_seen higher, fun c' clause covers => ?_⟩
    obtain waits | handled := waiting c' clause covers
    · obtain rfl | waits := List.mem_cons.1 waits
      · exact .inr (handled_of_arrived (Nat.le_trans (Nat.le_max_right ..) arrived.maxStack) there)
      · exact .inl waits
    · exact .inr (continues.toBuilds.handled handled)
  | raiseAfter arrives =>
    obtain ⟨f₀, done, located, split, visits, step, before_seen, after_seen, waiting⟩ := shapely
    obtain ⟨continues, _⟩ := arrive_continues arrives
    have higher := continues.maxStack
    exact ⟨f₀, done, located, split, visits.continues continues, step, Nat.le_trans before_seen higher,
      Nat.le_trans after_seen higher, fun c clause covers =>
        (waiting c clause covers).imp_right continues.toBuilds.handled⟩
  | goOn =>
    obtain ⟨f₀, done, located, split, visits, step, before_seen, after_seen, waiting⟩ := shapely
    have gone := visits.gone.snoc step before_seen after_seen fun c clause covers =>
      (waiting c clause covers).resolve_left nofun
    exact ⟨f₀, done ++ [located], by rw [split, List.append_assoc]; rfl, visits.complete, visits.current,
      gone⟩
  | leave last? successors =>
    obtain ⟨f₀, done, split, visits⟩ := shapely
    rw [List.append_nil] at split
    subst split
    exact ⟨f₀, _, _, visits, last?, successors, fun t there => .inl there⟩
  | pass arrives =>
    obtain ⟨f₀, last, all, visits, last?, successors, waiting⟩ := shapely
    obtain ⟨continues, there⟩ := arrive_continues arrives
    refine ⟨f₀, last, all, visits.continues continues, last?, successors, fun t goes => ?_⟩
    obtain waits | arrived := waiting t goes
    · obtain rfl | waits := List.mem_cons.1 waits
      · exact .inr there
      · exact .inl waits
    · exact .inr (continues.toBuilds.arrived arrived)
  | @left b f st =>
    obtain ⟨f₀, last, all, visits, last?, successors, arrived⟩ := shapely
    intro n b' f' block there
    obtain here | rest := visits.complete n b' f' block there
    · -- the block waits again, or is left from the frame that it still has
      cases here
      obtain waits | current := visits.current
      · exact .inr (.inl waits)
      · cases sited.1.block.symm.trans block
        cases current.symm.trans there
        exact .inr (.inr ⟨f, last, all, visits.gone, last?, successors, fun t goes =>
          (arrived t goes).resolve_left nofun⟩)
    · exact .inr rest
  | empty none => exact absurd none (closed.nonempty _ _ sited.block)

theorem shapely_of_meets (closed : g.IsClosed) (meets : g.Meets s initial moment) :
    g.Shapely moment := by
  induction meets with
  | refl =>
    intro n b f _ there
    rw [getElem?_entering] at there
    split at there
    next here => exact .inr (.inl (by rw [here]; exact List.mem_cons_self))
    next => cases there
  | tail before move ih => exact shapely_move closed move (sited_of_meets closed.start before) ih

theorem arrived_of_meets (meets : g.Meets s initial moment) : moment.state.Arrived 0 initial := by
  induction meets with
  | refl => exact ⟨initial, by rw [Moment.state, getElem?_entering, if_pos rfl], rfl⟩
  | tail _ move ih =>
    cases move with
    | raise arrives | raiseAfter arrives | pass arrives =>
      exact (arrive_continues arrives).1.toBuilds.arrived ih
    | _ => exact ih

end FlowGraph

namespace Analysis

variable {signature : Signature} {code : Code} {pool : Pool} {a : Analysis}

theorem FoundBy.isLeft (found : a.FoundBy s signature code pool g st) {start : Nat}
    (block : g.blocks[start]? = some b) (entry : a.entry[start]? = some f) : g.IsLeft b f st := by
  have closed := FlowGraph.isClosed_of_ofCode found.ofCode
  rw [found.entry] at entry
  obtain none | waits | left := FlowGraph.shapely_of_meets closed found.meets start b f block entry
  · cases none
  · rw [found.settled] at waits
    cases waits
  · exact left

theorem FoundBy.exists_block (found : a.FoundBy s signature code pool g st) (reaches : g.Reaches n) :
    ∃ b, g.blocks[n]? = some b := by
  have closed := FlowGraph.isClosed_of_ofCode found.ofCode
  cases reaches with
  | refl => exact closed.first
  | @tail k _ before leads =>
    obtain ⟨f, entry⟩ := found.entry_iff.2 before
    obtain ⟨b, block, ⟨last, last?, way⟩ | ⟨_, _, c, clause, _, rfl⟩⟩ := leads
    · obtain ⟨_, last', targets, _, last'?, successors, _⟩ := found.isLeft block entry
      cases last?.symm.trans last'?
      exact closed.successors k b last targets block last? successors n
        ((FlowGraph.successors_eq_ok successors).2 way)
    · exact closed.clauses c clause

theorem FoundBy.isSolution (found : a.FoundBy s signature code pool g st) :
    g.IsSolution Frame.SameWidths a.initial fun n => a.entry[n]? where
  start := by
    rw [found.entry]
    exact FlowGraph.arrived_of_meets found.meets
  isBlock _ f entry := found.exists_block (found.entry_iff.1 ⟨f, entry⟩)
  passes _ _ _ block entry := by
    obtain ⟨out, last, targets, gone, last?, successors, _⟩ := found.isLeft block entry
    exact ⟨out, targets, gone.follow, last, last?, successors⟩
  flows start b f block entry target out sends := by
    obtain ⟨out', last, targets, gone, last?, successors, arrived⟩ := found.isLeft block entry
    rw [found.entry]
    cases sends with
    | raises raises =>
      obtain ⟨located, there, c, clause, covers, rfl, locals, rfl⟩ := raises.exists_handler
      exact (gone.handled located there c clause covers).2 locals
    | leaves passes member =>
      obtain ⟨follow, last', last'?, successors'⟩ := passes
      cases gone.follow.symm.trans follow
      cases last?.symm.trans last'?
      cases successors.symm.trans successors'
      exact arrived target member

end Analysis

end StackMaps
