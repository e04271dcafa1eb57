import StackMaps.Proofs.Flow.Moves

/-! Over any source of class headers, the blocks that have frames when the loop ends are those that
control can get to. At no moment does a block have a frame that control cannot get to; and what a
block that was visited leads to has a frame, as it is only frames that change which the source has a
say in. -/

namespace StackMaps

open MonadAttach LawfulMonadAttach Relation

variable {m : Type → Type} [Monad m] [LawfulMonad m] [MonadAttach m] [LawfulMonadAttach m]
  {s : HeaderSource m} {g : FlowGraph} {b : Block} {f out initial : Frame} {st st' : FlowState}
  {moment moment' : Moment} {target n : Nat}

namespace FlowState

theorem mem_entry {entry : Std.TreeMap Nat Frame} : n ∈ entry ↔ ∃ f, entry[n]? = some f := by
  rw [Std.TreeMap.mem_iff_isSome_getElem?, Option.isSome_iff_exists]

theorem mem_assign : n ∈ (st.assign target out).entry ↔ n = target ∨ n ∈ st.entry := by
  simp only [assign, Std.TreeMap.mem_insert, Std.LawfulEqCmp.compare_eq_iff_eq, @eq_comm _ n]

theorem arrive_returns (arrives : CanReturn (st.arrive s target out) st') :
    st.entry[target]? = none ∧ st' = st.assign target out ∨
      ∃ existing merged, st.entry[target]? = some existing ∧
        CanReturn (Frame.merge s target existing out) merged ∧
        (merged = existing ∧ st' = st ∨ merged ≠ existing ∧ st' = st.assign target merged) := by
  rw [arrive] at arrives
  cases there : st.entry[target]? with
  | none =>
    simp only [there] at arrives
    exact .inl ⟨rfl, (eq_of_canReturn_pure arrives).symm⟩
  | some existing =>
    simp only [there] at arrives
    obtain ⟨merged, merges, arrives⟩ := canReturn_bind_imp' arrives
    have same := eq_of_canReturn_pure arrives
    refine .inr ⟨existing, merged, rfl, merges, ?_⟩
    split at same
    next stays => exact .inl ⟨stays, same.symm⟩
    next changes => exact .inr ⟨changes, same.symm⟩

/-- What an arrival at `target` does to the blocks that have frames and to those that wait. -/
structure Admits (target : Nat) (st st' : FlowState) : Prop where
  entry : ∀ n, n ∈ st'.entry ↔ n = target ∨ n ∈ st.entry
  pending : ∀ n ∈ st.pending, n ∈ st'.pending
  new : ∀ n ∈ st'.entry, n ∈ st.entry ∨ n ∈ st'.pending

theorem admits_assign : Admits target st (st.assign target out) where
  entry _ := mem_assign
  pending _ waits := mem_pending_assign.2 (.inr waits)
  new _ there := (mem_assign.1 there).symm.imp_right fun here => mem_pending_assign.2 (.inl here)

theorem admits_of_arrive (arrives : CanReturn (st.arrive s target out) st') :
    Admits target st st' := by
  obtain ⟨_, rfl⟩ | ⟨existing, _, there, _, ⟨_, rfl⟩ | ⟨_, rfl⟩⟩ := arrive_returns arrives
  · exact admits_assign
  · refine ⟨fun n => ⟨.inr, ?_⟩, fun _ => id, fun _ => .inl⟩
    rintro (rfl | there)
    · exact mem_entry.2 ⟨existing, ‹_›⟩
    · exact there
  · exact admits_assign

theorem Admits.of_see {height : Nat} (admits : Admits target (st.see height) st') :
    Admits target st st' := ⟨admits.entry, admits.pending, admits.new⟩

end FlowState

open FlowState

namespace FlowGraph

theorem leads_handler (block : g.blocks[n]? = some b) {located : Located} (there : located ∈ b.code)
    {c : CatchClause} (clause : c ∈ g.clauses.filter (·.covers located.offset)) :
    g.Leads n c.target := by
  obtain ⟨clause, covers⟩ := List.mem_filter.1 clause
  exact ⟨b, block, .inr ⟨located, there, c, clause, covers, rfl⟩⟩

theorem leads_target (block : g.blocks[n]? = some b) {last : Located}
    (last? : b.code.getLast? = some last) {targets : List Nat}
    (successors : g.successors last = .ok targets) (member : target ∈ targets) :
    g.Leads n target :=
  ⟨b, block, .inl ⟨last, last?, (successors_eq_ok successors).1 member⟩⟩

structure Inside (g : FlowGraph) (b : Block) (rest : List Located)
    (entry : Std.TreeMap Nat Frame) : Prop where
  reaches : ∀ n ∈ entry, g.Reaches n
  block : g.blocks[b.start]? = some b
  entered : b.start ∈ entry
  suffix : rest <:+ b.code

def Sited (g : FlowGraph) : Moment → Prop
  | .between st => ∀ n ∈ st.entry, g.Reaches n
  | .before b _ rest st => g.Inside b rest st.entry
  | .raising b _ _ rest clauses st => g.Inside b rest st.entry ∧ ∀ c ∈ clauses, g.Leads b.start c.target
  | .raised b _ _ rest c clauses st =>
    g.Inside b rest st.entry ∧ ∀ c' ∈ c :: clauses, g.Leads b.start c'.target
  | .leaving b _ targets st => g.Inside b [] st.entry ∧ ∀ t ∈ targets, g.Leads b.start t

theorem Inside.admits {rest : List Located} (inside : g.Inside b rest st.entry)
    (leads : g.Leads b.start target) (admits : Admits target st st') :
    g.Inside b rest st'.entry where
  reaches n there := by
    obtain rfl | there := (admits.entry n).1 there
    · exact (inside.reaches _ inside.entered).tail leads
    · exact inside.reaches n there
  block := inside.block
  entered := (admits.entry _).2 (.inr inside.entered)
  suffix := inside.suffix

theorem sited_move (start : ∀ (n : Nat) (b : Block), g.blocks[n]? = some b → b.start = n)
    (move : g.Moves s moment moment') (sited : g.Sited moment) : g.Sited moment' := by
  cases move with
  | visit next block entry =>
    obtain rfl := start _ _ block
    exact ⟨sited, block, mem_entry.2 ⟨_, entry⟩, List.suffix_rfl⟩
  | skip => exact sited
  | check step =>
    refine ⟨⟨sited.reaches, sited.block, sited.entered, ?_⟩, fun c => ?_⟩
    · exact (List.suffix_cons _ _).trans sited.suffix
    · exact leads_handler sited.block (sited.suffix.subset List.mem_cons_self)
  | raise arrives =>
    obtain ⟨inside, leads⟩ := sited
    exact ⟨inside.admits (leads _ List.mem_cons_self) (admits_of_arrive arrives).of_see, leads⟩
  | raiseAfter arrives =>
    obtain ⟨inside, leads⟩ := sited
    obtain ⟨first, rest⟩ := List.forall_mem_cons.1 leads
    exact ⟨inside.admits first (admits_of_arrive arrives), rest⟩
  | goOn => exact sited.1
  | leave last? successors =>
    exact ⟨sited, fun t => leads_target sited.block last? successors⟩
  | pass arrives =>
    obtain ⟨inside, leads⟩ := sited
    obtain ⟨first, rest⟩ := List.forall_mem_cons.1 leads
    exact ⟨inside.admits first (admits_of_arrive arrives), rest⟩
  | left => exact sited.1.reaches
  | empty => exact sited.reaches

theorem sited_of_meets (start : ∀ (n : Nat) (b : Block), g.blocks[n]? = some b → b.start = n)
    (meets : g.Meets s initial moment) : g.Sited moment := by
  induction meets with
  | refl =>
    intro n there
    obtain ⟨f, there⟩ := mem_entry.1 there
    rw [getElem?_entering] at there
    split at there
    next here =>
      subst here
      exact .refl
    next => cases there
  | tail _ move ih => exact sited_move start move ih

def Settled (g : FlowGraph) (entry : Std.TreeMap Nat Frame) (n : Nat) : Prop :=
  ∀ t, g.Leads n t → t ∈ entry

/-- All blocks that have a frame have been visited with it, wait to be, or are `current`. -/
def Closed (g : FlowGraph) (current : Option Nat) (st : FlowState) : Prop :=
  ∀ n ∈ st.entry, current = some n ∨ n ∈ st.pending ∨ g.Settled st.entry n

def Caught (g : FlowGraph) (code : List Located) (entry : Std.TreeMap Nat Frame) : Prop :=
  ∀ located ∈ code, ∀ c ∈ g.clauses, c.covers located.offset = true → c.target ∈ entry

def Advanced (g : FlowGraph) : Moment → Prop
  | .between st => g.Closed none st
  | .before b _ rest st =>
    g.Closed (some b.start) st ∧ ∃ done, b.code = done ++ rest ∧ g.Caught done st.entry
  | .raising b _ _ rest clauses st | .raised b _ _ rest _ clauses st =>
    g.Closed (some b.start) st ∧ ∃ done located, b.code = done ++ located :: rest ∧
      g.Caught done st.entry ∧
      ∀ c ∈ g.clauses, c.covers located.offset = true → c ∈ clauses ∨ c.target ∈ st.entry
  | .leaving b _ targets st => g.Closed (some b.start) st ∧ g.Caught b.code st.entry ∧
      ∀ last, b.code.getLast? = some last → ∀ t, t ∈ last.instruction.targets ∨
        last.instruction.fallsThrough = true ∧ t = last.next → t ∈ targets ∨ t ∈ st.entry

theorem Closed.admits {current : Option Nat} (closed : g.Closed current st)
    (admits : Admits target st st') : g.Closed current st' := by
  intro n there
  obtain old | waits := admits.new n there
  · refine (closed n old).imp_right (Or.imp (admits.pending n) fun settled t leads => ?_)
    exact (admits.entry t).2 (.inr (settled t leads))
  · exact .inr (.inl waits)

theorem Caught.admits {code : List Located} (caught : g.Caught code st.entry)
    (admits : Admits target st st') : g.Caught code st'.entry := fun located there c clause covers =>
  (admits.entry _).2 (.inr (caught located there c clause covers))

theorem Closed.done (closed : g.Closed (some n) st) (settled : g.Settled st.entry n) :
    g.Closed none st := fun k there => by
  obtain same | rest := closed k there
  · cases same
    exact .inr (.inr settled)
  · exact .inr rest

theorem advanced_move (start : ∀ (n : Nat) (b : Block), g.blocks[n]? = some b → b.start = n)
    (move : g.Moves s moment moment') (sited : g.Sited moment) (advanced : g.Advanced moment) :
    g.Advanced moment' := by
  cases move with
  | visit next block entry =>
    obtain rfl := start _ _ block
    refine ⟨fun n there => ?_, [], rfl, nofun⟩
    obtain none | waits | settled := advanced n there
    · cases none
    · rw [next] at waits
      obtain rfl | waits := List.mem_cons.1 waits
      · exact .inl rfl
      · exact .inr (.inl waits)
    · exact .inr (.inr settled)
  | @skip st _ _ next none =>
    intro n there
    obtain none | waits | settled := advanced n there
    · cases none
    · rw [next] at waits
      obtain rfl | waits := List.mem_cons.1 waits
      · obtain ⟨f, entry⟩ := mem_entry.1 there
        obtain noBlock | noEntry := none
        · refine .inr (.inr fun t ⟨b, block, _⟩ => ?_)
          rw [noBlock] at block
          cases block
        · exact absurd entry (by rw [noEntry]; simp)
      · exact .inr (.inl waits)
    · exact .inr (.inr settled)
  | check step =>
    obtain ⟨closed, done, split, caught⟩ := advanced
    exact ⟨closed, done, _, split, caught, fun c clause covers =>
      .inl (List.mem_filter.2 ⟨clause, covers⟩)⟩
  | raise arrives =>
    obtain ⟨closed, done, located, split, caught, rest⟩ := advanced
    have admits := (admits_of_arrive arrives).of_see
    refine ⟨closed.admits admits, done, located, split, caught.admits admits, fun c clause covers => ?_⟩
    obtain there | there := rest c clause covers
    · obtain rfl | there := List.mem_cons.1 there
      · exact .inr ((admits.entry _).2 (.inl rfl))
      · exact .inl there
    · exact .inr ((admits.entry _).2 (.inr there))
  | raiseAfter arrives =>
    obtain ⟨closed, done, located, split, caught, rest⟩ := advanced
    have admits := admits_of_arrive arrives
    exact ⟨closed.admits admits, done, located, split, caught.admits admits, fun c clause covers =>
      (rest c clause covers).imp_right fun there => (admits.entry _).2 (.inr there)⟩
  | goOn =>
    obtain ⟨closed, done, located, split, caught, rest⟩ := advanced
    refine ⟨closed, done ++ [located], by rw [split, List.append_assoc]; rfl, fun l there c clause covers => ?_⟩
    obtain there | there := List.mem_append.1 there
    · exact caught l there c clause covers
    · rw [List.mem_singleton.1 there] at covers
      exact (rest c clause covers).resolve_left nofun
  | leave last? successors =>
    obtain ⟨closed, done, split, caught⟩ := advanced
    rw [List.append_nil] at split
    refine ⟨closed, split ▸ caught, fun last last'? t way => ?_⟩
    rw [last?] at last'?
    cases last'?
    exact .inl ((successors_eq_ok successors).2 way)
  | pass arrives =>
    obtain ⟨closed, caught, rest⟩ := advanced
    have admits := admits_of_arrive arrives
    refine ⟨closed.admits admits, caught.admits admits, fun last last? t way => ?_⟩
    obtain there | there := rest last last? t way
    · obtain rfl | there := List.mem_cons.1 there
      · exact .inr ((admits.entry _).2 (.inl rfl))
      · exact .inl there
    · exact .inr ((admits.entry _).2 (.inr there))
  | left =>
    obtain ⟨closed, caught, rest⟩ := advanced
    refine closed.done fun t ⟨b', block, way⟩ => ?_
    rw [sited.1.block] at block
    cases block
    obtain ⟨last, last?, way⟩ | ⟨located, there, c, clause, covers, rfl⟩ := way
    · exact (rest last last? t way).resolve_left nofun
    · exact caught located there c clause covers
  | empty none =>
    refine advanced.1.done fun t ⟨b', block, way⟩ => ?_
    rw [sited.block] at block
    cases block
    rw [none] at way
    obtain ⟨last, last?, _⟩ | ⟨located, there, _⟩ := way
    · cases last?
    · cases there

theorem advanced_of_meets (start : ∀ (n : Nat) (b : Block), g.blocks[n]? = some b → b.start = n)
    (meets : g.Meets s initial moment) : g.Advanced moment := by
  induction meets with
  | refl =>
    intro n there
    obtain ⟨f, there⟩ := mem_entry.1 there
    rw [getElem?_entering] at there
    split at there
    next here => exact .inr (.inl (by rw [here]; exact List.mem_cons_self))
    next => cases there
  | tail before move ih => exact advanced_move start move (sited_of_meets start before) ih

theorem zero_mem_of_meets (meets : g.Meets s initial moment) : 0 ∈ moment.state.entry := by
  induction meets with
  | refl => exact mem_entry.2 ⟨initial, by rw [Moment.state, getElem?_entering, if_pos rfl]⟩
  | tail _ move ih =>
    cases move with
    | raise arrives => exact ((admits_of_arrive arrives).entry 0).2 (.inr ih)
    | raiseAfter arrives | pass arrives => exact ((admits_of_arrive arrives).entry 0).2 (.inr ih)
    | _ => exact ih

end FlowGraph

/-- The blocks that have frames after an analysis are those that control can get to. -/
theorem Analysis.FoundBy.entry_iff {signature : Signature} {code : Code} {pool : Pool}
    {a : Analysis} (found : a.FoundBy s signature code pool g st) :
    (∃ f, a.entry[n]? = some f) ↔ g.Reaches n := by
  have start := (FlowGraph.isClosed_of_ofCode found.ofCode).start
  rw [found.entry, ← mem_entry]
  refine ⟨FlowGraph.sited_of_meets start found.meets n, fun reaches => ?_⟩
  induction reaches with
  | refl => exact FlowGraph.zero_mem_of_meets found.meets
  | @tail k t _ leads ih =>
    obtain none | waits | settled := FlowGraph.advanced_of_meets start found.meets k ih
    · cases none
    · rw [found.settled] at waits
      cases waits
    · exact settled t leads

end StackMaps
