import StackMaps.Proofs.Flow.Visit

/-! Frames found so far only ever grow, and a block whose frame grew is visited again. So once no block
waits to be visited, what every block sends has arrived. -/

namespace StackMaps

variable {H : Hierarchy} {R : BinaryName → BinaryName → Prop} {P : Frame → Prop} {g : FlowGraph}
  {st st' st'' : FlowState} {target : Nat} {out : Frame}

/-- Merges of frames that satisfy `P` satisfy it too, and are above both in the order of frames. -/
structure Hierarchy.Joins (H : Hierarchy) (P : Frame → Prop) (R : BinaryName → BinaryName → Prop) :
    Prop where
  order : IsNameOrder R
  upper : ∀ n f g t, P f → P g → answer (Frame.merge H.source n f g) = .ok t →
    P t ∧ f.Below R t ∧ g.Below R t

def FlowGraph.Keeps (g : FlowGraph) (P : Frame → Prop) : Prop :=
  ∀ (start : Nat) (b : Block) f target out, g.blocks[start]? = some b → P f → g.Sends b f target out → P out

theorem mem_insertSorted {n k : Nat} {ks : List Nat} : n ∈ insertSorted k ks ↔ n = k ∨ n ∈ ks := by
  induction ks with
  | nil => simp [insertSorted]
  | cons l ls ih =>
    unfold insertSorted
    split
    · simp
    · split
      next same => simp [same]
      next => simp only [List.mem_cons, ih]; exact or_left_comm

namespace FlowState

theorem getElem?_assign {n : Nat} :
    (st.assign target out).entry[n]? = if n = target then some out else st.entry[n]? := by
  simp only [assign, Std.TreeMap.getElem?_insert, Std.LawfulEqCmp.compare_eq_iff_eq,
    @eq_comm _ n]

theorem getElem?_entering {initial : Frame} {n : Nat} :
    (entering initial).entry[n]? = if n = 0 then some initial else none := by
  simp only [entering, Std.TreeMap.getElem?_insert, Std.LawfulEqCmp.compare_eq_iff_eq, @eq_comm _ n]
  split
  · rfl
  · simp

theorem mem_pending_assign {n : Nat} :
    n ∈ (st.assign target out).pending ↔ n = target ∨ n ∈ st.pending := mem_insertSorted

theorem arrive_none (none : st.entry[target]? = none) :
    answer (arrive H.source target out st) = .ok (st.assign target out) := by
  rw [arrive]
  simp only [none]
  rfl

theorem arrive_some {existing : Frame} (there : st.entry[target]? = some existing) :
    answer (arrive H.source target out st) = do
      let merged ← answer (Frame.merge H.source target existing out)
      return if merged = existing then st else st.assign target merged := by
  rw [arrive]
  simp only [there, answer_bind, answer_pure]
  rfl

theorem arrive_cases (ok : answer (arrive H.source target out st) = .ok st') :
    st.entry[target]? = none ∧ st' = st.assign target out ∨
      ∃ existing merged, st.entry[target]? = some existing ∧
        answer (Frame.merge H.source target existing out) = .ok merged ∧
        (merged = existing ∧ st' = st ∨ merged ≠ existing ∧ st' = st.assign target merged) := by
  cases there : st.entry[target]? with
  | none =>
    rw [arrive_none there] at ok
    cases ok
    exact .inl ⟨rfl, rfl⟩
  | some existing =>
    rw [arrive_some there] at ok
    obtain ⟨merged, merges, ok⟩ := bind_eq_ok.1 ok
    cases ok
    refine .inr ⟨existing, merged, rfl, merges, ?_⟩
    by_cases same : merged = existing
    · exact .inl ⟨same, if_pos same⟩
    · exact .inr ⟨same, if_neg same⟩

def Entries (P : Frame → Prop) (st : FlowState) : Prop :=
  ∀ (n : Nat) (f : Frame), st.entry[n]? = some f → P f

/-- Frames grow from `st` to `st'`, and those that do make their block wait for a visit. -/
structure Grows (R : BinaryName → BinaryName → Prop) (st st' : FlowState) : Prop where
  entry : ∀ (n : Nat) (f : Frame), st.entry[n]? = some f → ∃ f', st'.entry[n]? = some f' ∧ f.Below R f'
  pending : ∀ n ∈ st.pending, n ∈ st'.pending
  unchanged : ∀ n : Nat, n ∉ st'.pending → st'.entry[n]? = st.entry[n]?

/-- What is sent to the target has arrived. -/
def Absorbs (R : BinaryName → BinaryName → Prop) (st : FlowState) (target : Nat) (out : Frame) :
    Prop := ∃ f, st.entry[target]? = some f ∧ out.Below R f

theorem Grows.refl (st : FlowState) : Grows R st st :=
  ⟨fun _ f there => ⟨f, there, .refl f⟩, fun _ => id, fun _ _ => rfl⟩

theorem Grows.trans (order : IsNameOrder R) (first : Grows R st st') (next : Grows R st' st'') :
    Grows R st st'' where
  entry n f there := by
    obtain ⟨f', there', below⟩ := first.entry n f there
    obtain ⟨f'', there'', below'⟩ := next.entry n f' there'
    exact ⟨f'', there'', below.trans order below'⟩
  pending n waiting := next.pending n (first.pending n waiting)
  unchanged n done := by
    rw [next.unchanged n done, first.unchanged n fun waiting => done (next.pending n waiting)]

theorem Grows.absorbs (order : IsNameOrder R) (grows : Grows R st st')
    (absorbs : Absorbs R st target out) : Absorbs R st' target out := by
  obtain ⟨f, there, below⟩ := absorbs
  obtain ⟨f', there', below'⟩ := grows.entry target f there
  exact ⟨f', there', below.trans order below'⟩

theorem Grows.assign (below : ∀ f, st.entry[target]? = some f → f.Below R out) :
    Grows R st (st.assign target out) where
  entry n f there := by
    rw [getElem?_assign]
    by_cases here : n = target
    · subst here
      exact ⟨out, if_pos rfl, below f there⟩
    · exact ⟨f, by rw [if_neg here]; exact there, .refl f⟩
  pending n waiting := mem_pending_assign.2 (.inr waiting)
  unchanged n done := by
    rw [getElem?_assign, if_neg fun here => done (mem_pending_assign.2 (.inl here))]

/-- A frame that arrives is absorbed. -/
theorem arrive_grows (joins : H.Joins P R) (entries : Entries P st) (sent : P out)
    (ok : answer (arrive H.source target out st) = .ok st') :
    Entries P st' ∧ Grows R st st' ∧ Absorbs R st' target out := by
  have assigned : ∀ f, P f → Entries P (st.assign target f) := fun f holds n f' there => by
    rw [getElem?_assign] at there
    split at there
    · cases there
      exact holds
    · exact entries n f' there
  obtain ⟨none, rfl⟩ | ⟨existing, merged, there, merges, same⟩ := arrive_cases ok
  · refine ⟨assigned out sent, .assign fun f there => ?_, out, ?_, .refl out⟩
    · rw [none] at there
      cases there
    · rw [getElem?_assign, if_pos rfl]
  · obtain ⟨holds, below, below'⟩ := joins.upper _ _ _ _ (entries _ _ there) sent merges
    obtain ⟨rfl, rfl⟩ | ⟨_, rfl⟩ := same
    · exact ⟨entries, .refl _, merged, there, below'⟩
    · refine ⟨assigned merged holds, .assign fun f there' => ?_, merged, ?_, below'⟩
      · rw [there] at there'
        cases there'
        exact below
      · rw [getElem?_assign, if_pos rfl]

theorem Receives.grows (joins : H.Joins P R) {sent : List (Nat × Frame)}
    (holds : ∀ target out, (target, out) ∈ sent → P out) (entries : Entries P st)
    (receives : Receives H sent st st') :
    Entries P st' ∧ Grows R st st' ∧ ∀ target out, (target, out) ∈ sent → Absorbs R st' target out := by
  induction receives with
  | nil => exact ⟨entries, .refl _, by simp⟩
  | see height _ ih =>
    obtain ⟨entries, grows, absorbs⟩ := ih holds entries
    exact ⟨entries, ⟨grows.entry, grows.pending, grows.unchanged⟩, absorbs⟩
  | cons first _ ih =>
    obtain ⟨entries, grows, absorbs⟩ :=
      arrive_grows joins entries (holds _ _ List.mem_cons_self) first
    obtain ⟨entries, grows', absorbs'⟩ :=
      ih (fun _ _ member => holds _ _ (List.mem_cons_of_mem _ member)) entries
    refine ⟨entries, grows.trans joins.order grows', fun target out member => ?_⟩
    obtain same | member := List.mem_cons.1 member
    · cases same
      exact grows'.absorbs joins.order absorbs
    · exact absorbs' target out member

end FlowState

open FlowState

namespace FlowGraph

/-- What every visit keeps holds in the end, when nothing waits to be visited. -/
theorem settle_preserves {I : FlowState → Prop}
    (visit : ∀ (st st' : FlowState) start rest (b : Block) (f : Frame), st.pending = start :: rest → g.blocks[start]? = some b →
      st.entry[start]? = some f →
      answer (g.visit H.source b f { st with pending := rest }) = .ok st' → I st → I st')
    (skip : ∀ (st : FlowState) start rest, st.pending = start :: rest →
      g.blocks[start]? = none ∨ st.entry[start]? = none → I st → I { st with pending := rest })
    {visits : Nat} (ok : answer (g.settle H.source visits st) = .ok (some st')) (holds : I st) :
    I st' ∧ st'.pending = [] := by
  induction visits generalizing st with
  | zero =>
    rw [settle] at ok
    cases none : st.pending with
    | nil =>
      simp only [none, List.isEmpty_nil, ↓reduceIte] at ok
      cases ok
      exact ⟨holds, none⟩
    | cons => simp [none] at ok
  | succ visits ih =>
    rw [settle] at ok
    cases waiting : st.pending with
    | nil =>
      simp only [waiting] at ok
      cases ok
      exact ⟨holds, waiting⟩
    | cons start rest =>
      simp only [waiting] at ok
      cases block : g.blocks[start]? with
      | none =>
        simp only [block] at ok
        exact ih ok (skip st start rest waiting (.inl block) holds)
      | some b =>
        cases entry : st.entry[start]? with
        | none =>
          simp only [block, entry] at ok
          exact ih ok (skip st start rest waiting (.inr entry) holds)
        | some f =>
          simp only [block, entry] at ok
          obtain ⟨st₁, visited, ok⟩ := answer_bind_eq_ok.1 ok
          exact ih ok (visit st st₁ start rest b f waiting block entry visited holds)

end FlowGraph

end StackMaps
