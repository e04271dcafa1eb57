import StackMaps.Proofs.Flow.Run
import StackMaps.Proofs.Frame.Paired

/-! What holds of the frame on entry, and is kept by the instructions that control gets to and by
merges, holds of all frames that the analysis finds. The stack of none is higher than the highest
one that was recorded. -/

namespace StackMaps

variable {H : Hierarchy} {P : Frame → Prop} {g : FlowGraph} {st st' : FlowState} {f out initial : Frame}

namespace FlowState

/-- All frames found satisfy `P`, and control gets to their blocks. -/
def Carried (P : Frame → Prop) (g : FlowGraph) (st : FlowState) : Prop :=
  ∀ (n : Nat) (f : Frame), st.entry[n]? = some f → P f ∧ g.Reaches n

def Low (locals : Nat) (st : FlowState) : Prop :=
  ∀ (n : Nat) (f : Frame), st.entry[n]? = some f → f.locals.length = locals ∧ f.height ≤ st.maxStack

theorem of_assign {Q : Nat → Frame → Prop} {target : Nat}
    (old : ∀ (n : Nat) (f : Frame), st.entry[n]? = some f → Q n f) (new : Q target f) (n : Nat)
    (f' : Frame) (there : (st.assign target f).entry[n]? = some f') : Q n f' := by
  rw [getElem?_assign] at there
  split at there
  next here =>
    cases there
    subst here
    exact new
  next => exact old n f' there

theorem of_entering {Q : Nat → Frame → Prop} (first : Q 0 initial) (n : Nat) (f : Frame)
    (there : (entering initial).entry[n]? = some f) : Q n f := by
  rw [getElem?_entering] at there
  split at there
  next here =>
    cases there
    subst here
    exact first
  next => cases there

end FlowState

open FlowState

namespace FlowGraph

/-- Instructions that control gets to, handlers and merges keep `P`. -/
structure Carries (H : Hierarchy) (g : FlowGraph) (P : Frame → Prop) : Prop where
  step : ∀ (start : Nat) (b : Block) located f f', g.Reaches start → g.blocks[start]? = some b →
    located ∈ b.code → P f → g.stepAt located f = .ok f' → P f'
  caught : ∀ f c, P f → c ∈ g.clauses → P (.atHandler f.locals c.type)
  merge : ∀ offset f f' t, P f → P f' → answer (Frame.merge H.source offset f f') = .ok t → P t

theorem Carries.visit (closed : g.IsClosed) (carries : g.Carries H P) {start : Nat} {b : Block}
    {f : Frame} (block : g.blocks[start]? = some b) (own : P f) (reaches : g.Reaches start)
    (visited : answer (g.visit H.source b f st) = .ok st') (carried : st.Carried P g) :
    st'.Carried P g := by
  obtain ⟨_, sent, receives, all⟩ := visit_ok (closed.nonempty _ _ block) visited
  refine receives.preserves (I := Carried P g) (fun _ _ old => old) ?_ carried
  intro st st' target out member arrives old
  have sends := (all target out).1 member
  have leads : g.Reaches target := reaches.tail (sends.leads block)
  have holds : P out := sends.carries
    (fun located there f f' => carries.step start b located f f' reaches block there)
    carries.caught own
  obtain ⟨_, rfl⟩ | ⟨existing, merged, there, merges, ⟨_, rfl⟩ | ⟨_, rfl⟩⟩ := arrive_cases arrives
  · exact of_assign old ⟨holds, leads⟩
  · exact old
  · exact of_assign old
      ⟨carries.merge target existing out merged (old target existing there).1 holds merges, leads⟩

theorem settle_carries (closed : g.IsClosed) (carries : g.Carries H P) (holds : P initial)
    {visits : Nat} (ok : answer (g.settle H.source visits (.entering initial)) = .ok (some st)) :
    st.Carried P g :=
  (settle_preserves (I := Carried P g)
    (fun _ _ start _ _ f _ block there visited old =>
      carries.visit closed block (old start f there).1 (old start f there).2 visited old)
    (fun _ _ _ _ _ old => old) ok (of_entering ⟨holds, .refl⟩)).1

end FlowGraph

namespace FlowState

variable {locals : Nat}

theorem arrive_low {target : Nat} (low : st.Low locals) (same : out.locals.length = locals)
    (less : out.height ≤ st.maxStack)
    (ok : answer (arrive H.source target out st) = .ok st') :
    st'.Low locals ∧ st'.maxStack = st.maxStack := by
  obtain ⟨_, rfl⟩ | ⟨existing, merged, there, merges, ⟨_, rfl⟩ | ⟨_, rfl⟩⟩ := arrive_cases ok
  · exact ⟨of_assign low ⟨same, less⟩, rfl⟩
  · exact ⟨low, rfl⟩
  · obtain ⟨same', less'⟩ := low target existing there
    have merges := (Frame.merge_eq_ok (same'.trans same.symm)).1 merges
    refine ⟨of_assign low ⟨merges.locals.length_merged.trans same', ?_⟩, rfl⟩
    rw [merges.height]
    exact less'

theorem Low.see (low : st.Low locals) (height : Nat) : (st.see height).Low locals := fun n f there =>
  ⟨(low n f there).1, Nat.le_trans (low n f there).2 (Nat.le_max_left _ _)⟩

theorem raise_low {before after : List FlowType} {clauses : List CatchClause}
    (low : st.Low locals) (first : before.length = locals) (second : after.length = locals)
    (ok : answer (raise H.source before after st clauses) = .ok st') :
    st'.Low locals ∧ st.maxStack ≤ st'.maxStack := by
  induction clauses generalizing st with
  | nil =>
    cases ok
    exact ⟨low, Nat.le_refl _⟩
  | cons c clauses ih =>
    rw [raise] at ok
    obtain ⟨st₁, arrived, ok⟩ := answer_bind_eq_ok.1 ok
    obtain ⟨st₂, arrived', ok⟩ := answer_bind_eq_ok.1 ok
    have one : (st.see 1).maxStack = max st.maxStack 1 := rfl
    have height (locals : List FlowType) : (Frame.atHandler locals c.type).height = 1 := rfl
    obtain ⟨low₁, same₁⟩ := arrive_low (low.see 1) first (by rw [height]; omega) arrived
    obtain ⟨low₂, same₂⟩ := arrive_low low₁ second (by rw [height]; omega) arrived'
    obtain ⟨low₃, more⟩ := ih low₂ ok
    exact ⟨low₃, by omega⟩

theorem arriveAll_low {targets : List Nat} (low : st.Low locals) (same : f.locals.length = locals)
    (less : f.height ≤ st.maxStack) (ok : answer (arriveAll H.source f st targets) = .ok st') :
    st'.Low locals := by
  induction targets generalizing st with
  | nil =>
    cases ok
    exact low
  | cons target targets ih =>
    obtain ⟨st₁, arrived, ok⟩ := answer_bind_eq_ok.1 ok
    obtain ⟨low₁, same₁⟩ := arrive_low low same less arrived
    exact ih low₁ (by omega) ok

end FlowState

namespace FlowGraph

variable {locals : Nat}

theorem walk_low {code : List Located} (low : st.Low locals) (same : f.locals.length = locals)
    (less : f.height ≤ st.maxStack) (ok : answer (g.walk H.source f st code) = .ok (out, st')) :
    st'.Low locals ∧ out.locals.length = locals ∧ out.height ≤ st'.maxStack := by
  induction code generalizing f st with
  | nil =>
    cases ok
    exact ⟨low, same, less⟩
  | cons located code ih =>
    rw [walk, answer_bind, answer_ofExcept] at ok
    obtain ⟨after, step, ok⟩ := bind_eq_ok.1 ok
    obtain ⟨st₁, raised, ok⟩ := answer_bind_eq_ok.1 ok
    have size := (Frame.step_near (stepAt_eq_ok.1 step)).locals.trans same
    obtain ⟨low₁, more⟩ := raise_low ((low.see f.height).see after.height) same size raised
    have seen : ((st.see f.height).see after.height).maxStack =
        max (max st.maxStack f.height) after.height := rfl
    exact ih low₁ size (by omega) ok

theorem settle_low (initial_height : initial.height = 0) {visits : Nat}
    (ok : answer (g.settle H.source visits (.entering initial)) = .ok (some st)) :
    st.Low initial.locals.length := by
  refine (settle_preserves (I := Low initial.locals.length) ?_ (fun _ _ _ _ _ old => old) ok
    (of_entering ⟨rfl, by omega⟩)).1
  intro st st' start rest b f _ _ there visited low
  rw [visit] at visited
  obtain ⟨⟨out, st₁⟩, walked, visited⟩ := answer_bind_eq_ok.1 visited
  obtain ⟨same, less⟩ := low start f there
  have popped : Low initial.locals.length { st with pending := rest } := low
  obtain ⟨low₁, same₁, less₁⟩ := walk_low popped same less walked
  simp only at visited
  split at visited
  next =>
    cases visited
    exact low₁
  next =>
    rw [answer_bind, answer_ofExcept] at visited
    obtain ⟨targets, _, visited⟩ := bind_eq_ok.1 visited
    exact arriveAll_low low₁ same₁ less₁ visited

end FlowGraph

end StackMaps
