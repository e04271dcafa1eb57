import StackMaps.Proofs.Flow.Graph
import StackMaps.Proofs.Flow.Settle

/-! The frames that the analysis settles on are a solution of the data flow, and it has a frame for
exactly those blocks that control can get to. -/

namespace StackMaps

variable {H : Hierarchy} {R : BinaryName → BinaryName → Prop} {P : Frame → Prop} {g : FlowGraph}
  {st st' : FlowState} {b : Block} {f out initial : Frame} {start target : Nat}

namespace FlowGraph

theorem successors_eq_ok {last : Located} {targets : List Nat}
    (ok : g.successors last = .ok targets) : target ∈ targets ↔
      target ∈ last.instruction.targets ∨
        last.instruction.fallsThrough = true ∧ target = last.next := by
  unfold successors at ok
  simp only at ok
  split at ok
  next falls =>
    split at ok
    next => cases ok
    next => cases ok; simp [falls]
  next ends => cases ok; simp [ends]

theorem Raises.exists_handler {code : List Located} (raises : g.Raises f code target out) :
    ∃ located ∈ code, ∃ c ∈ g.clauses, c.covers located.offset = true ∧ target = c.target ∧
      ∃ locals, out = .atHandler locals c.type := by
  induction raises with
  | before _ clause covers => exact ⟨_, List.mem_cons_self, _, clause, covers, rfl, _, rfl⟩
  | after _ clause covers => exact ⟨_, List.mem_cons_self, _, clause, covers, rfl, _, rfl⟩
  | later _ _ ih =>
    obtain ⟨located, there, handler⟩ := ih
    exact ⟨located, List.mem_cons_of_mem _ there, handler⟩

theorem Raises.exists_clause {code : List Located} (raises : g.Raises f code target out) :
    ∃ located ∈ code, ∃ c ∈ g.clauses, c.covers located.offset = true ∧ target = c.target := by
  obtain ⟨located, there, c, clause, covers, same, _⟩ := raises.exists_handler
  exact ⟨located, there, c, clause, covers, same⟩

theorem exists_raises {code : List Located} (passes : g.follow f code = .ok out) {located : Located}
    (there : located ∈ code) {c : CatchClause} (clause : c ∈ g.clauses)
    (covers : c.covers located.offset = true) : ∃ out, g.Raises f code c.target out := by
  induction code generalizing f with
  | nil => cases there
  | cons first code ih =>
    obtain ⟨after, step, passes⟩ := bind_eq_ok.1 passes
    obtain rfl | there := List.mem_cons.1 there
    · exact ⟨_, .before step clause covers⟩
    · obtain ⟨out, raises⟩ := ih passes there
      exact ⟨out, .later step raises⟩

theorem Sends.leads (block : g.blocks[start]? = some b) (sends : g.Sends b f target out) :
    g.Leads start target := by
  cases sends with
  | raises raises => exact ⟨b, block, .inr raises.exists_clause⟩
  | leaves passes member =>
    obtain ⟨last, last?, successors⟩ := passes.successors
    exact ⟨b, block, .inl ⟨last, last?, (successors_eq_ok successors).1 member⟩⟩

theorem exists_sends {targets : List Nat} (block : g.blocks[start]? = some b)
    (passes : g.Passes b f out targets) (leads : g.Leads start target) :
    ∃ out, g.Sends b f target out := by
  obtain ⟨b', block', way⟩ := leads
  rw [block] at block'
  cases block'
  obtain ⟨last, last?, way⟩ | ⟨located, there, c, clause, covers, rfl⟩ := way
  · obtain ⟨last', last'?, successors⟩ := passes.successors
    rw [last?] at last'?
    cases last'?
    exact ⟨out, .leaves passes ((successors_eq_ok successors).2 way)⟩
  · obtain ⟨out, raises⟩ := exists_raises passes.follow there clause covers
    exact ⟨out, .raises raises⟩

theorem IsClosed.sends (closed : g.IsClosed) (block : g.blocks[start]? = some b)
    (sends : g.Sends b f target out) : ∃ b', g.blocks[target]? = some b' := by
  cases sends with
  | raises raises =>
    obtain ⟨_, _, c, clause, _, rfl⟩ := raises.exists_clause
    exact closed.clauses c clause
  | leaves passes member =>
    obtain ⟨last, last?, successors⟩ := passes.successors
    exact closed.successors start b last _ block last? successors target member

end FlowGraph

namespace FlowState

theorem Receives.exists_sent {sent : List (Nat × Frame)} (receives : Receives H sent st st')
    {n : Nat} (there : st'.entry[n]? = some f) :
    (∃ f', st.entry[n]? = some f') ∨ ∃ out, (n, out) ∈ sent := by
  induction receives with
  | nil => exact .inl ⟨f, there⟩
  | see height _ ih => exact ih there
  | @cons target out sent st st₁ st' first _ ih =>
    have assigned : ∀ out', (∃ f', (st.assign target out').entry[n]? = some f') →
        (∃ f', st.entry[n]? = some f') ∨ ∃ out'', (n, out'') ∈ (target, out) :: sent := by
      rintro out' ⟨f', there⟩
      rw [getElem?_assign] at there
      split at there
      next here => exact .inr ⟨out, by simp [here]⟩
      next => exact .inl ⟨f', there⟩
    obtain old | ⟨out', member⟩ := ih there
    · obtain ⟨_, rfl⟩ | ⟨_, _, _, _, ⟨_, rfl⟩ | ⟨_, rfl⟩⟩ := arrive_cases first
      · exact assigned _ old
      · exact .inl old
      · exact assigned _ old
    · exact .inr ⟨out', List.mem_cons_of_mem _ member⟩

/-- What every visit keeps: a block that does not wait for a visit passes from its frame on, and what
it sends has arrived. -/
structure Sound (R : BinaryName → BinaryName → Prop) (P : Frame → Prop) (g : FlowGraph)
    (initial : Frame) (st : FlowState) : Prop where
  entries : st.Entries P
  start : st.Absorbs R 0 initial
  reaches : ∀ (n : Nat) (f : Frame), st.entry[n]? = some f → g.Reaches n
  isBlock : ∀ (n : Nat) (f : Frame), st.entry[n]? = some f → ∃ b, g.blocks[n]? = some b
  passes : ∀ (n : Nat) (b : Block) (f : Frame), n ∉ st.pending → g.blocks[n]? = some b →
    st.entry[n]? = some f → ∃ out targets, g.Passes b f out targets
  flows : ∀ (n : Nat) (b : Block) (f : Frame), n ∉ st.pending → g.blocks[n]? = some b →
    st.entry[n]? = some f → ∀ target out, g.Sends b f target out → st.Absorbs R target out

theorem sound_entering (closed : g.IsClosed) (holds : P initial) :
    Sound R P g initial (.entering initial) := by
  have only : ∀ (n : Nat) (f : Frame), (entering initial).entry[n]? = some f → n = 0 ∧ f = initial := by
    intro n f there
    rw [getElem?_entering] at there
    split at there
    next here =>
      cases there
      exact ⟨here, rfl⟩
    next => cases there
  refine ⟨fun n f there => ?_, ⟨initial, getElem?_entering, .refl _⟩, fun n f there => ?_,
    fun n f there => ?_, fun n b f done _ there => ?_, fun n b f done _ there => ?_⟩
  · rw [(only n f there).2]
    exact holds
  · rw [(only n f there).1]
    exact Relation.ReflTransGen.refl
  · rw [(only n f there).1]
    exact closed.first
  · exact absurd (by rw [(only n f there).1]; exact List.mem_cons_self) done
  · exact absurd (by rw [(only n f there).1]; exact List.mem_cons_self) done

/-- After a visit the visited block has sent its frames, unless it waits again. -/
theorem Sound.visit (closed : g.IsClosed) (joins : H.Joins P R) (keeps : g.Keeps P)
    (sound : Sound R P g initial st) {rest : List Nat} (waiting : st.pending = start :: rest)
    (block : g.blocks[start]? = some b) (there : st.entry[start]? = some f)
    (ok : answer (g.visit H.source b f { st with pending := rest }) = .ok st') :
    Sound R P g initial st' := by
  obtain ⟨passes, sent, receives, all⟩ := FlowGraph.visit_ok (closed.nonempty _ _ block) ok
  have own := sound.entries _ _ there
  have popped : Entries P { st with pending := rest } := sound.entries
  obtain ⟨entries, grows, absorbs⟩ := receives.grows joins
    (fun target out member => keeps _ _ _ _ _ block own ((all target out).1 member)) popped
  have order := joins.order
  have absorbed : ∀ target out, st.Absorbs R target out → st'.Absorbs R target out :=
    fun target out old => grows.absorbs order old
  have same : ∀ n b' f', n ∉ st'.pending → g.blocks[n]? = some b' → st'.entry[n]? = some f' →
      (∃ out targets, g.Passes b' f' out targets) ∧
        ∀ target out, g.Sends b' f' target out → st'.Absorbs R target out := by
    intro n b' f' done block' there'
    rw [grows.unchanged n done] at there'
    by_cases here : n = start
    · subst here
      rw [block] at block'
      cases block'
      change st.entry[n]? = some f' at there'
      rw [there] at there'
      cases there'
      exact ⟨passes, fun target out sends => absorbs target out ((all target out).2 sends)⟩
    · have quiet : n ∉ st.pending := by
        rw [waiting, List.mem_cons, not_or]
        exact ⟨here, fun later => done (grows.pending n later)⟩
      exact ⟨sound.passes n b' f' quiet block' there', fun target out sends =>
        absorbed target out (sound.flows n b' f' quiet block' there' target out sends)⟩
  have arrived : ∀ (n : Nat) (f' : Frame), st'.entry[n]? = some f' →
      (∃ f'', st.entry[n]? = some f'') ∨ ∃ out, g.Sends b f n out := fun n f' there' =>
    (receives.exists_sent there').imp_right fun ⟨out, member⟩ => ⟨out, (all n out).1 member⟩
  refine ⟨entries, absorbed _ _ sound.start, fun n f' there' => ?_, fun n f' there' => ?_,
    fun n b' f' done block' there' => (same n b' f' done block' there').1,
    fun n b' f' done block' there' => (same n b' f' done block' there').2⟩
  · obtain ⟨f'', old⟩ | ⟨out, sends⟩ := arrived n f' there'
    · exact sound.reaches n f'' old
    · exact (sound.reaches start f there).tail (sends.leads block)
  · obtain ⟨f'', old⟩ | ⟨out, sends⟩ := arrived n f' there'
    · exact sound.isBlock n f'' old
    · exact closed.sends block sends

theorem Sound.skip (sound : Sound R P g initial st) {rest : List Nat}
    (waiting : st.pending = start :: rest)
    (nothing : g.blocks[start]? = none ∨ st.entry[start]? = none) :
    Sound R P g initial { st with pending := rest } := by
  have quiet : ∀ (n : Nat) (b : Block) (f : Frame), n ∉ rest → g.blocks[n]? = some b →
      st.entry[n]? = some f → n ∉ st.pending := by
    intro n b f done block there
    rw [waiting, List.mem_cons, not_or]
    refine ⟨?_, done⟩
    rintro rfl
    obtain none | none := nothing
    · rw [none] at block
      cases block
    · rw [none] at there
      cases there
  exact ⟨sound.entries, sound.start, sound.reaches, sound.isBlock,
    fun n b f done block there => sound.passes n b f (quiet n b f done block there) block there,
    fun n b f done block there => sound.flows n b f (quiet n b f done block there) block there⟩

end FlowState

open FlowState

namespace FlowGraph

/-- When the data flow settles, the frames found are a solution. -/
theorem settle_sound (closed : g.IsClosed) (joins : H.Joins P R) (keeps : g.Keeps P)
    (holds : P initial) {visits : Nat}
    (ok : answer (g.settle H.source visits (.entering initial)) = .ok (some st)) :
    st.Sound R P g initial ∧ st.pending = [] :=
  settle_preserves
    (fun _ _ _ _ _ _ waiting block there visited sound =>
      sound.visit closed joins keeps waiting block there visited)
    (fun _ _ _ waiting nothing sound => sound.skip waiting nothing) ok (sound_entering closed holds)

theorem isSolution_of_sound (sound : st.Sound R P g initial) (done : st.pending = []) :
    g.IsSolution (Frame.Below R) initial fun n => st.entry[n]? where
  start := sound.start
  isBlock := sound.isBlock
  passes n b f block there := sound.passes n b f (by simp [done]) block there
  flows n b f block there := sound.flows n b f (by simp [done]) block there

theorem IsSolution.entry_of_reaches {le : Frame → Frame → Prop} {entry : Nat → Option Frame}
    (solution : g.IsSolution le initial entry) {n : Nat} (reaches : g.Reaches n) :
    ∃ f, entry n = some f := by
  induction reaches with
  | refl =>
    obtain ⟨f, there, _⟩ := solution.start
    exact ⟨f, there⟩
  | tail _ leads ih =>
    obtain ⟨f, there⟩ := ih
    obtain ⟨b, block⟩ := solution.isBlock _ f there
    obtain ⟨out, targets, passes⟩ := solution.passes _ b f block there
    obtain ⟨out', sends⟩ := exists_sends block passes leads
    obtain ⟨f', there', _⟩ := solution.flows _ b f block there _ _ sends
    exact ⟨f', there'⟩

end FlowGraph

end StackMaps
