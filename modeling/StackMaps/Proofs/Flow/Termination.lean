import Mathlib.Algebra.Order.BigOperators.Group.Finset
import StackMaps.Proofs.Flow.Names
import StackMaps.Proofs.Frame.Rank

/-! Where no superclass links form a circle the data flow settles, or fails, after a number of visits
that depends on the size of the method: a visit ends with a block less waiting, except for blocks
whose frame changed, and each change lowers the rank of a frame. -/

namespace StackMaps

open scoped BigOperators

variable {H : Hierarchy} {g : FlowGraph} {st st' : FlowState} {b : Block} {f out : Frame}
  {start target : Nat} {D N : Nat}

theorem length_insertSorted (n : Nat) (ks : List Nat) : (insertSorted n ks).length ≤ ks.length + 1 := by
  induction ks with
  | nil => exact Nat.le_refl _
  | cons k ks ih =>
    unfold insertSorted
    split
    · simp
    · split
      · simp
      · simpa using ih

namespace FlowState

def room (H : Hierarchy) (D cap : Nat) (st : FlowState) (n : Nat) : Nat :=
  match st.entry[n]? with
  | none => cap + 1
  | some f => f.rank H D

/-- How many visits can be left. -/
def potential (H : Hierarchy) (D cap : Nat) (starts : Finset Nat) (st : FlowState) : Nat :=
  st.pending.length + ∑ n ∈ starts, st.room H D cap n

variable {cap : Nat} {starts : Finset Nat}

theorem room_assign {n : Nat} : (st.assign target out).room H D cap n =
    if n = target then out.rank H D else st.room H D cap n := by
  unfold room
  rw [getElem?_assign]
  by_cases here : n = target
  · rw [if_pos here, if_pos here]
  · rw [if_neg here, if_neg here]

theorem potential_assign (member : target ∈ starts) (less : out.rank H D < st.room H D cap target) :
    (st.assign target out).potential H D cap starts ≤ st.potential H D cap starts := by
  have changed : ∑ n ∈ starts, (st.assign target out).room H D cap n <
      ∑ n ∈ starts, st.room H D cap n := by
    refine Finset.sum_lt_sum (fun n _ => ?_) ⟨target, member, ?_⟩
    · rw [room_assign]
      split
      next here => exact Nat.le_of_lt (here ▸ less)
      next => exact Nat.le_refl _
    · rw [room_assign, if_pos rfl]
      exact less
  have longer : (st.assign target out).pending.length ≤ st.pending.length + 1 :=
    length_insertSorted target st.pending
  unfold potential
  omega

abbrev Fits (D N : Nat) : Frame → Prop := Frame.Fits (fun _ => True) D N

theorem arrive_potential (rooted : H.IsRooted) (apart : ∀ a b, ¬ H.Circle a b)
    (entries : st.Entries (Fits D N)) (fits : Fits D N out) (member : target ∈ starts)
    (low : st.entry[target]? = none → out.rank H D ≤ cap)
    (ok : answer (arrive H.source target out st) = .ok st') :
    st'.potential H D cap starts ≤ st.potential H D cap starts := by
  obtain ⟨none, rfl⟩ | ⟨existing, merged, there, merges, ⟨_, rfl⟩ | ⟨changed, rfl⟩⟩ := arrive_cases ok
  · refine potential_assign member ?_
    rw [room, none]
    exact Nat.lt_succ_of_le (low none)
  · exact Nat.le_refl _
  · refine potential_assign member ?_
    rw [room, there]
    have merges := (Frame.merge_eq_ok ((entries _ _ there).2.trans fits.2.symm)).1 merges
    exact (merges.rank_lt rooted apart fits.1).resolve_left changed

end FlowState

theorem Hierarchy.IsUpper.joins {K : BinaryName → Prop} {R : BinaryName → BinaryName → Prop}
    (upper : H.IsUpper K R) (D N : Nat) :
    H.Joins (Frame.Fits K D N) R where
  order := upper.order
  upper offset f g t inf ing ok := by
    have merges := (Frame.merge_eq_ok (inf.2.trans ing.2.symm)).1 ok
    obtain ⟨within, below, below'⟩ := merges.upper upper.toIsCovering inf.1 ing.1
    exact ⟨⟨within, merges.locals.length_merged.trans inf.2⟩, below, below'⟩

namespace FlowState

theorem Receives.potential {cap : Nat} {starts : Finset Nat} (rooted : H.IsRooted)
    (apart : ∀ a b, ¬ H.Circle a b) {sent : List (Nat × Frame)}
    (fits : ∀ target out, (target, out) ∈ sent → Fits D N out ∧ target ∈ starts ∧
      (st.entry[target]? = none → out.rank H D ≤ cap))
    (receives : Receives H sent st st') (entries : st.Entries (Fits D N)) :
    st'.potential H D cap starts ≤ st.potential H D cap starts := by
  induction receives with
  | nil => exact Nat.le_refl _
  | see height _ ih => exact ih fits entries
  | @cons target out sent st st₁ st' first _ ih =>
    obtain ⟨here, member, low⟩ := fits _ _ List.mem_cons_self
    obtain ⟨entries', grows, _⟩ := arrive_grows (rooted.isUpper.joins D N) entries here first
    have less := arrive_potential rooted apart entries here member low first
    refine Nat.le_trans (ih (fun n f member => ?_) entries') less
    obtain ⟨here, member, low⟩ := fits n f (List.mem_cons_of_mem _ member)
    refine ⟨here, member, fun none => low ?_⟩
    cases there : st.entry[n]? with
    | none => rfl
    | some f' =>
      obtain ⟨_, there', _⟩ := grows.entry n f' there
      rw [none] at there'
      cases there'

end FlowState

namespace FlowGraph

def weight (g : FlowGraph) (n : Nat) : Nat :=
  match g.blocks[n]? with
  | some b => b.code.length
  | none => 0

theorem length_follow {code : List Located} (ok : g.follow f code = .ok out) :
    out.stack.length ≤ f.stack.length + 2 * code.length := by
  induction code generalizing f with
  | nil =>
    cases ok
    exact Nat.le_add_right _ _
  | cons located code ih =>
    obtain ⟨after, step, ok⟩ := bind_eq_ok.1 ok
    have first := (Frame.step_near (stepAt_eq_ok.1 step)).stack
    have rest := ih ok
    simp only [List.length_cons]
    omega

theorem Raises.length_stack {code : List Located} (raises : g.Raises f code target out) :
    out.stack.length = 1 := by
  induction raises with
  | before => rfl
  | after => rfl
  | later _ _ ih => exact ih

theorem Sends.length_stack (sends : g.Sends b f target out) :
    out.stack.length ≤ max 1 (f.stack.length + 2 * b.code.length) := by
  cases sends with
  | raises raises => rw [raises.length_stack]; exact Nat.le_max_left _ _
  | leaves passes _ => exact Nat.le_trans (length_follow passes.follow) (Nat.le_max_right _ _)

end FlowGraph

namespace FlowState

theorem arrive_height (entries : st.Entries fun f => f.locals.length = N)
    (same : out.locals.length = N) (ok : answer (arrive H.source target out st) = .ok st') {n : Nat} :
    st.entry[n]? = none ∧ n = target ∧ st'.entry[n]? = some out ∨
      (st'.entry[n]?.map (·.stack.length)) = st.entry[n]?.map (·.stack.length) := by
  obtain ⟨none, rfl⟩ | ⟨existing, merged, there, merges, ⟨_, rfl⟩ | ⟨_, rfl⟩⟩ := arrive_cases ok
  · rw [getElem?_assign]
    by_cases here : n = target
    · subst here
      exact .inl ⟨none, rfl, if_pos rfl⟩
    · exact .inr (by rw [if_neg here])
  · exact .inr rfl
  · rw [getElem?_assign]
    by_cases here : n = target
    · subst here
      have merges := (Frame.merge_eq_ok ((entries _ _ there).trans same.symm)).1 merges
      exact .inr (by rw [if_pos rfl, there, Option.map_some, Option.map_some,
        merges.stack.length_merged])
    · exact .inr (by rw [if_neg here])

theorem Receives.height (joins : H.Joins (fun f => f.locals.length = N) H.Under)
    {sent : List (Nat × Frame)} (same : ∀ target out, (target, out) ∈ sent → out.locals.length = N)
    (receives : Receives H sent st st') (entries : st.Entries fun f => f.locals.length = N) {n : Nat} :
    st.entry[n]? = none ∧ (∃ out, (n, out) ∈ sent ∧
        st'.entry[n]?.map (·.stack.length) = some out.stack.length) ∨
      st'.entry[n]?.map (·.stack.length) = st.entry[n]?.map (·.stack.length) := by
  induction receives with
  | nil => exact .inr rfl
  | see height _ ih => exact ih same entries
  | @cons target out sent st st₁ st' first _ ih =>
    have here := same _ _ List.mem_cons_self
    have later := ih (fun _ _ member => same _ _ (List.mem_cons_of_mem _ member))
      (arrive_grows joins entries here first).1
    obtain ⟨none, rfl, arrived⟩ | kept := arrive_height (n := n) entries here first
    · refine .inl ⟨none, out, List.mem_cons_self, ?_⟩
      obtain ⟨none', _⟩ | kept' := later
      · rw [arrived] at none'
        cases none'
      · rw [kept', arrived, Option.map_some]
    · obtain ⟨none', out', member, height⟩ | kept' := later
      · refine .inl ⟨?_, out', List.mem_cons_of_mem _ member, height⟩
        rw [none', Option.map_none] at kept
        exact Option.map_eq_none_iff.1 kept.symm
      · exact .inr (kept'.trans kept)

/-- What visits keep: the blocks in `visited` have sent their frames, and the stack is not higher
than their instructions can make it. -/
structure Bounded (g : FlowGraph) (D N : Nat) (visited : Finset Nat) (st : FlowState) : Prop where
  fits : st.Entries (Fits D N)
  height : st.Entries fun f => f.stack.length ≤ 1 + 2 * ∑ n ∈ visited, g.weight n
  isBlock : ∀ (n : Nat) (f : Frame), st.entry[n]? = some f → ∃ b, g.blocks[n]? = some b
  there : ∀ n ∈ visited, ∃ f, st.entry[n]? = some f
  led : ∀ n ∈ visited, ∀ target, g.Leads n target → ∃ f, st.entry[target]? = some f

theorem bounded_entering (closed : g.IsClosed) {initial : Frame} (fits : Fits D N initial)
    (empty : initial.stack = []) : Bounded g D N ∅ (.entering initial) := by
  have only : ∀ (n : Nat) (f : Frame), (entering initial).entry[n]? = some f → n = 0 ∧ f = initial := by
    intro n f there
    rw [getElem?_entering] at there
    split at there
    next here =>
      cases there
      exact ⟨here, rfl⟩
    next => cases there
  refine ⟨fun n f there => ?_, fun n f there => ?_, fun n f there => ?_, by simp, by simp⟩
  · rw [(only n f there).2]
    exact fits
  · rw [(only n f there).2]
    simp only [empty, List.length_nil, Nat.zero_le]
  · rw [(only n f there).1]
    exact closed.first

theorem Bounded.visit (rooted : H.IsRooted) (apart : ∀ a b, ¬ H.Circle a b) (closed : g.IsClosed)
    (keeps : g.Keeps (Fits D N)) {starts : Finset Nat}
    (all : ∀ (n : Nat) (b : Block), g.blocks[n]? = some b → n ∈ starts)
    {cap : Nat} (enough : (N + (1 + 2 * ∑ n ∈ starts, g.weight n)) * (D + H.bound + 3) ≤ cap)
    {visited : Finset Nat} (bounded : Bounded g D N visited st) {rest : List Nat}
    (waiting : st.pending = start :: rest) (block : g.blocks[start]? = some b)
    (there : st.entry[start]? = some f)
    (ok : answer (g.visit H.source b f { st with pending := rest }) = .ok st') :
    Bounded g D N (insert start visited) st' ∧
      st'.potential H D cap starts < st.potential H D cap starts := by
  obtain ⟨⟨out, targets, passes⟩, sent, receives, sends⟩ :=
    FlowGraph.visit_ok (closed.nonempty _ _ block) ok
  have entries : ({ st with pending := rest } : FlowState).Entries (Fits D N) := bounded.fits
  have fits : ∀ target out, (target, out) ∈ sent → Fits D N out := fun target out member =>
    keeps start b f target out block (bounded.fits _ _ there) ((sends _ _).1 member)
  obtain ⟨entries', grows, absorbs⟩ := receives.grows (rooted.isUpper.joins D N) fits entries
  have old : ∀ n ∈ insert start visited, ∃ f, st.entry[n]? = some f := fun n member => by
    obtain rfl | member := Finset.mem_insert.1 member
    · exact ⟨f, there⟩
    · exact bounded.there n member
  have within : ∑ n ∈ insert start visited, g.weight n ≤ ∑ n ∈ starts, g.weight n := by
    refine Finset.sum_le_sum_of_subset fun n member => ?_
    obtain ⟨f, there⟩ := old n member
    obtain ⟨b, block⟩ := bounded.isBlock n f there
    exact all n b block
  -- Only a block that was not visited before can send the first frame to another one.
  have low : ∀ target out, (target, out) ∈ sent → st.entry[target]? = none →
      out.stack.length ≤ 1 + 2 * ∑ n ∈ insert start visited, g.weight n := by
    intro target out member none
    have sends := (sends target out).1 member
    have new : start ∉ visited := fun again => by
      obtain ⟨_, there⟩ := bounded.led start again target (sends.leads block)
      rw [none] at there
      cases there
    have here : g.weight start = b.code.length := by simp only [FlowGraph.weight, block]
    have height := bounded.height _ _ there
    have more := sends.length_stack
    rw [Finset.sum_insert new, here]
    omega
  have rank : ∀ target out, (target, out) ∈ sent → st.entry[target]? = none →
      out.rank H D ≤ cap := by
    intro target out member none
    have short := low target out member none
    have wide := (fits target out member).2
    refine Nat.le_trans (Frame.rank_le (fits target out member).1) (Nat.le_trans ?_ enough)
    exact Nat.mul_le_mul_right _ (by omega)
  have arrived : ∀ (n : Nat) (f' : Frame), st'.entry[n]? = some f' →
      st.entry[n]? = none ∧ (∃ out, (n, out) ∈ sent ∧ f'.stack.length = out.stack.length) ∨
        ∃ f, st.entry[n]? = some f ∧ f'.stack.length = f.stack.length := by
    intro n f' there'
    have height := receives.height (n := n) (rooted.joins N) (fun _ _ member => (fits _ _ member).2)
      fun n f there => (entries n f there).2
    rw [there', Option.map_some] at height
    obtain ⟨none, out, member, same⟩ | kept := height
    · exact .inl ⟨none, out, member, Option.some.inj same⟩
    · obtain ⟨f, there, same⟩ := Option.map_eq_some_iff.1 kept.symm
      exact .inr ⟨f, there, same.symm⟩
  refine ⟨⟨entries', ?_, ?_, ?_, ?_⟩, ?_⟩
  · intro n f' there'
    obtain ⟨none, out, member, same⟩ | ⟨f, there, same⟩ := arrived n f' there'
    · exact Nat.le_trans (Nat.le_of_eq same) (low n out member none)
    · have height := bounded.height n f there
      have more := Finset.sum_le_sum_of_subset (f := g.weight) (Finset.subset_insert start visited)
      simp only at height ⊢
      omega
  · intro n f' there'
    obtain ⟨_, out, member, _⟩ | ⟨f, there, _⟩ := arrived n f' there'
    · exact closed.sends block ((sends n out).1 member)
    · exact bounded.isBlock n f there
  · intro n member
    obtain ⟨f, there⟩ := old n member
    obtain ⟨f', there', _⟩ := grows.entry n f there
    exact ⟨f', there'⟩
  · intro n member target leads
    obtain rfl | member := Finset.mem_insert.1 member
    · obtain ⟨out, sent⟩ := FlowGraph.exists_sends block passes leads
      obtain ⟨f', there', _⟩ := absorbs target out ((sends _ _).2 sent)
      exact ⟨f', there'⟩
    · obtain ⟨f, there⟩ := bounded.led n member target leads
      obtain ⟨f', there', _⟩ := grows.entry target f there
      exact ⟨f', there'⟩
  · have less : st'.potential H D cap starts ≤
        ({ st with pending := rest } : FlowState).potential H D cap starts := by
      refine receives.potential rooted apart (fun target out member => ?_) entries
      obtain ⟨b', block'⟩ := closed.sends block ((sends target out).1 member)
      exact ⟨fits target out member, all target b' block', rank target out member⟩
    refine Nat.lt_of_le_of_lt less ?_
    simp only [FlowState.potential, waiting, List.length_cons]
    exact Nat.add_lt_add_right (Nat.lt_succ_self _) _

end FlowState

open FlowState

namespace FlowGraph

/-- The loop ends if each visit takes something off a bound for the number of blocks that wait. -/
theorem settle_ne_none {I : FlowState → Prop} (left : FlowState → Nat)
    (count : ∀ st : FlowState, st.pending.length ≤ left st)
    (visit : ∀ (st st' : FlowState) start rest (b : Block) (f : Frame), st.pending = start :: rest →
      g.blocks[start]? = some b → st.entry[start]? = some f →
      answer (g.visit H.source b f { st with pending := rest }) = .ok st' → I st →
      I st' ∧ left st' < left st)
    (skip : ∀ (st : FlowState) start rest, st.pending = start :: rest → I st →
      I { st with pending := rest } ∧ left { st with pending := rest } < left st)
    {visits : Nat} (enough : left st ≤ visits) (holds : I st) :
    answer (g.settle H.source visits st) ≠ .ok none := by
  induction visits generalizing st with
  | zero =>
    have none : st.pending = [] :=
      List.length_eq_zero_iff.1 (Nat.le_zero.1 (Nat.le_trans (count st) enough))
    rw [settle]
    simp [none]
  | succ visits ih =>
    rw [settle]
    cases waiting : st.pending with
    | nil => simp
    | cons start rest =>
      obtain ⟨kept, less⟩ := skip st start rest waiting holds
      have skipped := ih (Nat.le_of_lt_succ (Nat.lt_of_lt_of_le less enough)) kept
      simp only
      cases block : g.blocks[start]? with
      | none => exact skipped
      | some b =>
        cases entry : st.entry[start]? with
        | none => exact skipped
        | some f =>
          intro ok
          obtain ⟨st₁, visited, ok⟩ := answer_bind_eq_ok.1 ok
          obtain ⟨kept, less⟩ := visit st st₁ start rest b f waiting block entry visited holds
          exact ih (Nat.le_of_lt_succ (Nat.lt_of_lt_of_le less enough)) kept ok

theorem settle_ends (rooted : H.IsRooted) (apart : ∀ a b, ¬ H.Circle a b) (closed : g.IsClosed)
    (keeps : g.Keeps (Fits D N)) {starts : Finset Nat}
    (all : ∀ (n : Nat) (b : Block), g.blocks[n]? = some b → n ∈ starts) {initial : Frame}
    (fits : Fits D N initial) (empty : initial.stack = []) {visits : Nat}
    (enough : starts.card * (1 + (N + (1 + 2 * ∑ n ∈ starts, g.weight n)) * (D + H.bound + 3)) ≤
      visits) : answer (g.settle H.source visits (.entering initial)) ≠ .ok none := by
  obtain ⟨cap, same⟩ : ∃ cap, (N + (1 + 2 * ∑ n ∈ starts, g.weight n)) * (D + H.bound + 3) = cap :=
    ⟨_, rfl⟩
  rw [same] at enough
  refine settle_ne_none (I := fun st => ∃ visited, st.Bounded g D N visited)
    (FlowState.potential H D cap starts) (fun st => Nat.le_add_right _ _) ?_ ?_ ?_
    ⟨∅, bounded_entering closed fits empty⟩
  · rintro st st' start rest b f waiting block there ok ⟨visited, bounded⟩
    obtain ⟨bounded, less⟩ :=
      bounded.visit rooted apart closed keeps all (Nat.le_of_eq same) waiting block there ok
    exact ⟨⟨_, bounded⟩, less⟩
  · rintro st start rest waiting ⟨visited, bounded⟩
    refine ⟨⟨visited, bounded.fits, bounded.height, bounded.isBlock, bounded.there, bounded.led⟩, ?_⟩
    simp only [FlowState.potential, waiting, List.length_cons]
    exact Nat.add_lt_add_right (Nat.lt_succ_self _) _
  · obtain ⟨b, first⟩ := closed.first
    have rank : initial.rank H D ≤ cap := by
      rw [← same]
      refine Nat.le_trans (Frame.rank_le fits.1) (Nat.mul_le_mul_right _ ?_)
      rw [fits.2, empty, List.length_nil]
      exact Nat.le_add_right _ _
    have room : ∀ n, (FlowState.entering initial).room H D cap n =
        if n = 0 then initial.rank H D else cap + 1 := by
      intro n
      rw [FlowState.room, getElem?_entering]
      split
      next found =>
        split at found
        next => cases found
        next other => rw [if_neg other]
      next found =>
        split at found
        next here =>
          cases found
          rw [if_pos here]
        next => cases found
    have less : ∑ n ∈ starts, (FlowState.entering initial).room H D cap n < ∑ _n ∈ starts, (cap + 1) := by
      refine Finset.sum_lt_sum (fun n _ => ?_) ⟨0, all 0 b first, ?_⟩
      · rw [room]
        split
        · exact Nat.le_succ_of_le rank
        · exact Nat.le_refl _
      · rw [room, if_pos rfl]
        exact Nat.lt_succ_of_le rank
    rw [Finset.sum_const_nat fun _ _ => rfl] at less
    refine Nat.le_trans ?_ enough
    have one : (FlowState.entering initial).pending.length = 1 := rfl
    rw [FlowState.potential, one, Nat.add_comm 1, Nat.add_comm 1]
    exact less

theorem exists_starts {signature : Signature} {code : Code} {pool : Pool}
    (ok : FlowGraph.ofCode signature code pool = .ok g) :
    ∃ starts : Finset Nat, (∀ (n : Nat) (b : Block), g.blocks[n]? = some b → n ∈ starts) ∧
      starts.card ≤ code.bytes.length ∧ ∑ n ∈ starts, g.weight n ≤ code.bytes.length := by
  obtain ⟨located, clauses, holds, caught, rfl⟩ := ofCode_eq_ok.1 ok
  have short : located.length ≤ code.bytes.length := holds.decodes.length_le
  have lengths : ((code.blocks located).map (·.code.length)).sum = located.length := by
    rw [← List.length_flatMap, holds.cut.flatMap_code]
  refine ⟨((code.blocks located).map (·.start)).toFinset, fun n b block => ?_, ?_, ?_⟩
  · obtain ⟨member, rfl⟩ := holds.getElem?_blocks.1 block
    exact List.mem_toFinset.2 (List.mem_map_of_mem member)
  · refine Nat.le_trans (List.toFinset_card_le _) (Nat.le_trans ?_ short)
    rw [← lengths, List.length_map, ← List.length_map (f := fun b : Block => b.code.length)]
    refine List.length_le_sum_of_one_le _ fun n member => ?_
    obtain ⟨b, there, rfl⟩ := List.mem_map.1 member
    exact List.length_pos_iff.2 (holds.block_code_ne_nil there)
  · have nodup : ((code.blocks located).map (·.start)).Nodup := by
      refine List.pairwise_map.2 (holds.pairwise.imp_of_mem fun {a b} ina inb apart => ?_)
      have := holds.start_lt_stop ina
      omega
    rw [List.sum_toFinset _ nodup, List.map_map]
    have weights : (code.blocks located).map (weight (.ofInstructions signature code pool located
        clauses) ∘ (·.start)) = (code.blocks located).map (·.code.length) := by
      refine List.map_congr_left fun b there => ?_
      simp only [Function.comp, weight, holds.getElem?_blocks.2 ⟨there, rfl⟩]
    rw [weights, lengths]
    exact short

/-- Without circles of superclass links, the visits that are taken to be needed are enough. -/
theorem settle_ne_none_of_apart (rooted : H.IsRooted) (apart : ∀ a b, ¬ H.Circle a b)
    {signature : Signature} {code : Code} {pool : Pool} {initial : Frame}
    (ok : FlowGraph.ofCode signature code pool = .ok g)
    (entered : signature.initialFrame code.maxLocals = .ok initial) {visits : Nat}
    (enough : Analysis.visitsNeeded H.bound signature code pool ≤ visits) :
    answer (g.settle H.source visits (.entering initial)) ≠ .ok none := by
  obtain ⟨starts, all, card, weight⟩ := exists_starts ok
  obtain ⟨length, empty⟩ := Signature.length_initialFrame entered
  have names : signature.Names (fun _ => True) pool :=
    ⟨trivial, fun t _ => t.names_true, fun t _ => t.names_true, trivial⟩
  have within := names.initialFrame (D := signature.descriptor.chars.length + pool.longestText + 1)
    (by omega) entered
  have keeps := (names.preserves (D := signature.descriptor.chars.length + pool.longestText + 1)
    (by omega) ok).and (g.preserves_length code.maxLocals.toNat)
  refine settle_ends (D := signature.descriptor.chars.length + pool.longestText + 1) rooted apart
    (isClosed_of_ofCode ok) (N := code.maxLocals.toNat) keeps.keeps all ⟨within, length⟩ empty
    (Nat.le_trans ?_ enough)
  simp only [Analysis.visitsNeeded]
  refine Nat.mul_le_mul card (Nat.add_le_add_left (Nat.mul_le_mul ?_ ?_) 1)
  · omega
  · omega

end FlowGraph

end StackMaps
