import StackMaps.Proofs.Flow.Run
import StackMaps.Proofs.Frame.Joined
import StackMaps.Proofs.Frame.Transfer

/-! If the data flow has a solution, visits succeed and the frames found stay below it: what a block
sends from a frame below its own is below what the solution has for its target, and merges are least
upper bounds. -/

namespace StackMaps

variable {H : Hierarchy} {K : BinaryName → Prop} {R : BinaryName → BinaryName → Prop} {D N : Nat}
  {g : FlowGraph} {S : Nat → Option Frame} {st : FlowState} {b : Block} {f F out OUT : Frame}

namespace FlowState

/-- What a frame that arrives at a place has to be for the frames found to stay below a solution. -/
structure Beneath (K : BinaryName → Prop) (R : BinaryName → BinaryName → Prop) (D N : Nat)
    (S : Nat → Option Frame) (n : Nat) (f : Frame) : Prop where
  fits : f.Fits K D N
  below : ∃ F, S n = some F ∧ f.Below R F ∧ .top ∉ F.stack

def AllBeneath (K : BinaryName → Prop) (R : BinaryName → BinaryName → Prop) (D N : Nat)
    (S : Nat → Option Frame) (st : FlowState) : Prop :=
  ∀ (n : Nat) (f : Frame), st.entry[n]? = some f → Beneath K R D N S n f

theorem AllBeneath.assign {target : Nat} (all : AllBeneath K R D N S st)
    (beneath : Beneath K R D N S target out) : AllBeneath K R D N S (st.assign target out) := by
  intro n f there
  rw [getElem?_assign] at there
  split at there
  next here =>
    cases there
    rw [here]
    exact beneath
  next => exact all n f there

theorem AllBeneath.arrive (least : H.IsLeast K R) {target : Nat} (all : AllBeneath K R D N S st)
    (beneath : Beneath K R D N S target out) :
    ∃ st', answer (arrive H.source target out st) = .ok st' ∧ AllBeneath K R D N S st' := by
  cases there : st.entry[target]? with
  | none => exact ⟨_, arrive_none there, all.assign beneath⟩
  | some existing =>
    obtain ⟨⟨within, locals⟩, F, solved, below, usable⟩ := all target existing there
    obtain ⟨⟨within', locals'⟩, F', solved', below', _⟩ := beneath
    rw [solved] at solved'
    cases solved'
    obtain ⟨merged, merges, least'⟩ := Frame.merge_least least within within' below below'
    have upper := merges.upper least.toIsCovering within within'
    have fits : Beneath K R D N S target merged :=
      ⟨⟨upper.1, merges.locals.length_merged.trans locals⟩, F, solved, least', usable⟩
    rw [arrive_some there, (Frame.merge_eq_ok (locals.trans locals'.symm)).2 merges]
    by_cases same : merged = existing
    · exact ⟨st, by simp [same, bind, Except.bind, pure, Except.pure], all⟩
    · exact ⟨st.assign target merged, by simp [same, bind, Except.bind, pure, Except.pure],
        all.assign fits⟩

theorem AllBeneath.see (height : Nat) (all : AllBeneath K R D N S st) :
    AllBeneath K R D N S (st.see height) := all

theorem AllBeneath.raise (least : H.IsLeast K R) {before after : List FlowType}
    {clauses : List CatchClause} (all : AllBeneath K R D N S st)
    (beneath : ∀ c ∈ clauses, Beneath K R D N S c.target (.atHandler before c.type) ∧
      Beneath K R D N S c.target (.atHandler after c.type)) :
    ∃ st', answer (raise H.source before after st clauses) = .ok st' ∧ AllBeneath K R D N S st' := by
  induction clauses generalizing st with
  | nil => exact ⟨st, rfl, all⟩
  | cons c clauses ih =>
    obtain ⟨⟨first, second⟩, rest⟩ := List.forall_mem_cons.1 beneath
    obtain ⟨st₁, arrives, all⟩ := (all.see 1).arrive least first
    obtain ⟨st₂, arrives', all⟩ := all.arrive least second
    obtain ⟨st₃, raises, all⟩ := ih all rest
    exact ⟨st₃, answer_bind_eq_ok.2 ⟨st₁, arrives, answer_bind_eq_ok.2 ⟨st₂, arrives', raises⟩⟩, all⟩

theorem AllBeneath.arriveAll (least : H.IsLeast K R) {targets : List Nat}
    (all : AllBeneath K R D N S st) (beneath : ∀ target ∈ targets, Beneath K R D N S target out) :
    ∃ st', answer (arriveAll H.source out st targets) = .ok st' ∧ AllBeneath K R D N S st' := by
  induction targets generalizing st with
  | nil => exact ⟨st, rfl, all⟩
  | cons target targets ih =>
    obtain ⟨first, rest⟩ := List.forall_mem_cons.1 beneath
    obtain ⟨st₁, arrives, all⟩ := all.arrive least first
    obtain ⟨st₂, arrives', all⟩ := ih all rest
    exact ⟨st₂, answer_bind_eq_ok.2 ⟨st₁, arrives, arrives'⟩, all⟩

end FlowState

open FlowState

def Frame.UsablyBelow (R : BinaryName → BinaryName → Prop) (f F : Frame) : Prop :=
  f.Below R F ∧ .top ∉ F.stack

theorem FlowType.top_notMem_of_below {as bs : List FlowType}
    (below : List.Forall₂ (FlowType.Below R) as bs) (usable : .top ∉ bs) : .top ∉ as := by
  induction below with
  | nil => exact usable
  | cons first _ ih =>
    rw [List.mem_cons, not_or] at usable ⊢
    refine ⟨fun top => ?_, ih usable.2⟩
    subst top
    cases first
    exact usable.1 rfl

namespace FlowGraph

/-- A walk from a frame below the one of the solution succeeds, and stays below it. -/
theorem walk_progress (least : H.IsLeast K R) {code : List Located}
    (preserves : ∀ located ∈ code, ∀ f f', Frame.Fits K D N f → g.stepAt located f = .ok f' →
      Frame.Fits K D N f')
    (caught : ∀ f c, Frame.Fits K D N f → c ∈ g.clauses →
      Frame.Fits K D N (.atHandler f.locals c.type))
    (fits : f.Fits K D N) (below : f.Below R F)
    (passes : g.follow F code = .ok OUT)
    (raises : ∀ target out, g.Raises F code target out → ∃ T, S target = some T ∧ out.UsablyBelow R T)
    (all : AllBeneath K R D N S st) :
    ∃ out st', answer (g.walk H.source f st code) = .ok (out, st') ∧
      out.Fits K D N ∧ out.Below R OUT ∧ AllBeneath K R D N S st' := by
  have order := least.order
  induction code generalizing f F st with
  | nil =>
    cases passes
    exact ⟨f, st, rfl, fits, below, all⟩
  | cons located code ih =>
    obtain ⟨AFTER, STEP, passes⟩ := bind_eq_ok.1 passes
    obtain ⟨after, step, below'⟩ := Frame.step_mono below (stepAt_eq_ok.1 STEP)
    have step := stepAt_eq_ok.2 step
    obtain ⟨here, later⟩ := List.forall_mem_cons.1 preserves
    have fits' := here f after fits step
    obtain ⟨st₁, raised, all⟩ : ∃ st₁, answer (FlowState.raise H.source f.locals after.locals
        ((st.see f.height).see after.height) (g.clauses.filter (·.covers located.offset))) = .ok st₁ ∧
        AllBeneath K R D N S st₁ := by
      refine AllBeneath.raise least all fun c member => ?_
      obtain ⟨clause, covers⟩ := List.mem_filter.1 member
      obtain ⟨T, solved, under, usable⟩ := raises _ _ (.before STEP clause covers)
      obtain ⟨T', solved', under', _⟩ := raises _ _ (.after STEP clause covers)
      rw [solved] at solved'
      cases solved'
      have before := (below.atHandler c.type).trans order under
      have after := (below'.atHandler c.type).trans order under'
      exact ⟨⟨caught _ c fits clause, T, solved, before, usable⟩,
        ⟨caught _ c fits' clause, T, solved, after, usable⟩⟩
    obtain ⟨out, st', walked, rest⟩ :=
      ih later fits' below' passes (fun target out raises' => raises target out (.later STEP raises')) all
    refine ⟨out, st', ?_, rest⟩
    rw [walk, answer_bind, answer_ofExcept, step]
    exact answer_bind_eq_ok.2 ⟨st₁, raised, walked⟩

theorem visit_progress (least : H.IsLeast K R)
    (preserves : g.Preserves (Frame.Fits K D N)) {initial : Frame}
    (solution : g.IsSolution (Frame.UsablyBelow R) initial S) {start : Nat}
    (block : g.blocks[start]? = some b) (all : AllBeneath K R D N S st)
    (beneath : Beneath K R D N S start f) :
    ∃ st', answer (g.visit H.source b f st) = .ok st' ∧ AllBeneath K R D N S st' := by
  obtain ⟨fits, F, solved, below, _⟩ := beneath
  obtain ⟨OUT, targets, passes⟩ := solution.passes start b F block solved
  have flows := solution.flows start b F block solved
  obtain ⟨out, st₁, walked, fits, below', all⟩ := walk_progress least
    (fun located there f f' => preserves.step start b located f f' block there) preserves.caught
    fits below passes.follow (fun target out raises => flows target out (.raises raises)) all
  obtain ⟨last, last?, successors⟩ := passes.successors
  obtain ⟨st', arrives, all⟩ := all.arriveAll least fun target member => by
    obtain ⟨T, solved, under, usable⟩ := flows target OUT (.leaves passes member)
    exact ⟨fits, T, solved, below'.trans least.order under, usable⟩
  refine ⟨st', answer_bind_eq_ok.2 ⟨(out, st₁), walked, ?_⟩, all⟩
  simp only [last?]
  rw [answer_bind, answer_ofExcept, successors]
  exact arrives

/-- The data flow settles below a solution, or it runs out of visits. -/
theorem settle_progress (least : H.IsLeast K R)
    (preserves : g.Preserves (Frame.Fits K D N)) {initial : Frame}
    (solution : g.IsSolution (Frame.UsablyBelow R) initial S) (visits : Nat)
    (all : AllBeneath K R D N S st) :
    answer (g.settle H.source visits st) = .ok none ∨
      ∃ st', answer (g.settle H.source visits st) = .ok (some st') ∧ AllBeneath K R D N S st' := by
  induction visits generalizing st with
  | zero =>
    rw [settle]
    by_cases done : st.pending.isEmpty
    · exact .inr ⟨st, by simp [done], all⟩
    · exact .inl (by simp [done])
  | succ visits ih =>
    rw [settle]
    cases waiting : st.pending with
    | nil => exact .inr ⟨st, by simp, all⟩
    | cons start rest =>
      simp only
      have all : AllBeneath K R D N S { st with pending := rest } := all
      cases block : g.blocks[start]? with
      | none => exact ih all
      | some b =>
        cases entry : st.entry[start]? with
        | none => exact ih all
        | some f =>
          obtain ⟨st₁, visited, all⟩ := visit_progress least preserves solution block all (all start f entry)
          obtain none | ⟨st', settled, all⟩ := ih all
          · exact .inl (answer_bind_eq_ok.2 ⟨st₁, visited, none⟩)
          · exact .inr ⟨st', answer_bind_eq_ok.2 ⟨st₁, visited, settled⟩, all⟩

end FlowGraph

end StackMaps
