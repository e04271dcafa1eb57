import StackMaps.Proofs.Flow.Carried

/-! What the analysis finds depends only on the code that control gets to: two data flows that agree
there settle on the same frames. More visits than needed change nothing. -/

namespace StackMaps

variable {H : Hierarchy} {g g' : FlowGraph} {f out : Frame} {st st' : FlowState}

theorem FlowState.raise_congr {before after : List FlowType} {clauses clauses' : List CatchClause}
    (same : clauses'.map (fun c => (c.target, c.type)) = clauses.map fun c => (c.target, c.type)) :
    raise H.source before after st clauses' = raise H.source before after st clauses := by
  induction clauses generalizing clauses' st with
  | nil => rw [List.map_eq_nil_iff.1 same]
  | cons c clauses ih =>
    cases clauses' with
    | nil => cases same
    | cons c' clauses' =>
      obtain ⟨first, rest⟩ := List.cons.inj same
      obtain ⟨target, type⟩ := Prod.mk.inj first
      simp only [raise, target, type, ih rest]

namespace FlowGraph

/-- Which handlers get what an instruction throws, in order, and as what. -/
def caughtAt (g : FlowGraph) (offset : Nat) : List (Nat × RefType) :=
  (g.clauses.filter (·.covers offset)).map fun c => (c.target, c.type)

/-- Two data flows have the same instructions, with the same effects and the same handlers, wherever
control gets to in the first. -/
structure Agrees (g g' : FlowGraph) : Prop where
  length : g'.length = g.length
  blocks : ∀ n : Nat, g.Reaches n → ∃ b b', g.blocks[n]? = some b ∧ g'.blocks[n]? = some b' ∧
    b'.code = b.code ∧ ∀ l ∈ b.code, g'.caughtAt l.offset = g.caughtAt l.offset
  step : ∀ l f after, g.stepAt l f = .ok after → g'.stepAt l f = .ok after

theorem walk_agrees {code : List Located} (step : ∀ l f after, g.stepAt l f = .ok after →
      g'.stepAt l f = .ok after)
    (clauses : ∀ l ∈ code, g'.caughtAt l.offset = g.caughtAt l.offset)
    (ok : answer (g.walk H.source f st code) = .ok (out, st')) :
    answer (g'.walk H.source f st code) = .ok (out, st') := by
  induction code generalizing f st with
  | nil => exact ok
  | cons l code ih =>
    obtain ⟨own, clauses⟩ := List.forall_mem_cons.1 clauses
    rw [walk, answer_bind, answer_ofExcept] at ok ⊢
    obtain ⟨after, stepped, ok⟩ := bind_eq_ok.1 ok
    obtain ⟨st₁, raised, ok⟩ := answer_bind_eq_ok.1 ok
    refine bind_eq_ok.2 ⟨after, step l f after stepped, answer_bind_eq_ok.2 ⟨st₁, ?_, ih clauses ok⟩⟩
    rwa [FlowState.raise_congr own]

theorem visit_agrees {b b' : Block} (length : g'.length = g.length) (code : b'.code = b.code)
    (step : ∀ l f after, g.stepAt l f = .ok after → g'.stepAt l f = .ok after)
    (clauses : ∀ l ∈ b.code, g'.caughtAt l.offset = g.caughtAt l.offset)
    (ok : answer (g.visit H.source b f st) = .ok st') :
    answer (g'.visit H.source b' f st) = .ok st' := by
  rw [visit] at ok ⊢
  obtain ⟨⟨out, st₁⟩, walked, ok⟩ := answer_bind_eq_ok.1 ok
  rw [code]
  refine answer_bind_eq_ok.2 ⟨_, walk_agrees step clauses walked, ?_⟩
  have successors (last : Located) : g'.successors last = g.successors last := by
    rw [FlowGraph.successors, FlowGraph.successors, length]
  simpa only [successors] using ok

theorem settle_agrees (closed : g.IsClosed) (agrees : g.Agrees g') {visits : Nat}
    (carried : st.Carried (fun _ => True) g)
    (ok : answer (g.settle H.source visits st) = .ok (some st')) :
    answer (g'.settle H.source visits st) = .ok (some st') := by
  have carries : g.Carries H fun _ => True :=
    ⟨fun _ _ _ _ _ _ _ _ _ _ => trivial, fun _ _ _ _ => trivial, fun _ _ _ _ _ _ _ => trivial⟩
  induction visits generalizing st with
  | zero => exact ok
  | succ visits ih =>
    rw [settle] at ok ⊢
    cases pending : st.pending with
    | nil =>
      rw [pending] at ok
      exact ok
    | cons start rest =>
      rw [pending] at ok
      simp only at ok ⊢
      have popped : FlowState.Carried (fun _ => True) g { st with pending := rest } := carried
      cases entry : st.entry[start]? with
      | none =>
        rw [entry] at ok
        have later : answer (g.settle H.source visits { st with pending := rest }) = .ok (some st') := by
          cases block : g.blocks[start]? <;> rwa [block] at ok
        cases g'.blocks[start]? <;> exact ih popped later
      | some f =>
        rw [entry] at ok
        have reaches := (carried start f entry).2
        obtain ⟨b, b', block, block', code, clauses⟩ := agrees.blocks start reaches
        rw [block] at ok
        rw [block']
        simp only at ok ⊢
        obtain ⟨st₁, visited, ok⟩ := answer_bind_eq_ok.1 ok
        refine answer_bind_eq_ok.2 ⟨st₁, visit_agrees agrees.length code agrees.step clauses visited, ?_⟩
        exact ih (carries.visit closed block trivial reaches visited popped) ok

theorem settle_more {visits more : Nat} (less : visits ≤ more)
    (ok : answer (g.settle H.source visits st) = .ok (some st')) :
    answer (g.settle H.source more st) = .ok (some st') := by
  induction visits generalizing more st with
  | zero =>
    rw [settle] at ok
    cases pending : st.pending with
    | cons start rest =>
      rw [pending] at ok
      cases ok
    | nil =>
      rw [pending] at ok
      cases more with
      | zero => rwa [settle, pending]
      | succ more =>
        rw [settle, pending]
        exact ok
  | succ visits ih =>
    obtain ⟨more, rfl⟩ := Nat.exists_eq_add_of_le' (Nat.le_trans (Nat.succ_pos visits) less)
    have less := Nat.le_of_succ_le_succ less
    rw [settle] at ok ⊢
    cases pending : st.pending with
    | nil =>
      rw [pending] at ok
      exact ok
    | cons start rest =>
      rw [pending] at ok
      simp only at ok ⊢
      split at ok
      next =>
        obtain ⟨st₁, visited, ok⟩ := answer_bind_eq_ok.1 ok
        exact answer_bind_eq_ok.2 ⟨st₁, visited, ih less ok⟩
      next => exact ih less ok

end FlowGraph

end StackMaps
