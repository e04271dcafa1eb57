import StackMaps.Proofs.Frame.FrameMerge
import StackMaps.Proofs.Flow.Solution

/-! What a visit of a block does to the frames found so far: it lets everything that the block sends
arrive, one frame after the other. -/

namespace StackMaps

variable {H : Hierarchy} {g : FlowGraph} {b : Block} {f out : Frame} {st st' : FlowState}

namespace FlowState

inductive Receives (H : Hierarchy) : List (Nat × Frame) → FlowState → FlowState → Prop
  | nil (st : FlowState) : Receives H [] st st
  | see (height : Nat) {sent : List (Nat × Frame)} {st st' : FlowState}
      (rest : Receives H sent (st.see height) st') : Receives H sent st st'
  | cons {target : Nat} {out : Frame} {sent : List (Nat × Frame)} {st st₁ st' : FlowState}
      (first : answer (arrive H.source target out st) = .ok st₁) (rest : Receives H sent st₁ st') :
      Receives H ((target, out) :: sent) st st'

namespace Receives

theorem append {sent sent' : List (Nat × Frame)} {st₁ : FlowState} (first : Receives H sent st st₁)
    (next : Receives H sent' st₁ st') : Receives H (sent ++ sent') st st' := by
  induction first with
  | nil => exact next
  | see height _ ih => exact .see height (ih next)
  | cons arrives _ ih => exact .cons arrives (ih next)

theorem preserves {I : FlowState → Prop} {sent : List (Nat × Frame)}
    (see : ∀ st height, I st → I (st.see height))
    (arrive : ∀ st st' target out, (target, out) ∈ sent →
      answer (arrive H.source target out st) = .ok st' → I st → I st')
    (receives : Receives H sent st st') (holds : I st) : I st' := by
  induction receives with
  | nil => exact holds
  | see height _ ih => exact ih arrive (see _ height holds)
  | cons first _ ih =>
    exact ih (fun _ _ _ _ member => arrive _ _ _ _ (List.mem_cons_of_mem _ member))
      (arrive _ _ _ _ List.mem_cons_self first holds)

end Receives

theorem raise_ok {before after : List FlowType} {clauses : List CatchClause}
    (ok : answer (raise H.source before after st clauses) = .ok st') :
    ∃ sent, Receives H sent st st' ∧ ∀ target out, (target, out) ∈ sent ↔
      ∃ c ∈ clauses, target = c.target ∧
        (out = .atHandler before c.type ∨ out = .atHandler after c.type) := by
  induction clauses generalizing st with
  | nil =>
    cases ok
    exact ⟨[], .nil _, by simp⟩
  | cons c clauses ih =>
    rw [raise] at ok
    obtain ⟨st₁, first, ok₁⟩ := answer_bind_eq_ok.1 ok
    obtain ⟨st₂, second, ok₂⟩ := answer_bind_eq_ok.1 ok₁
    obtain ⟨sent, receives, all⟩ := ih ok₂
    refine ⟨_, .see 1 (.cons first (.cons second receives)), fun target out => ?_⟩
    simp only [List.mem_cons, Prod.mk.injEq, all, exists_eq_or_imp]
    constructor
    · rintro (⟨rfl, rfl⟩ | ⟨rfl, rfl⟩ | h) <;> simp_all
    · rintro (⟨rfl, rfl | rfl⟩ | h) <;> simp_all

theorem arriveAll_ok {targets : List Nat}
    (ok : answer (arriveAll H.source f st targets) = .ok st') :
    ∃ sent, Receives H sent st st' ∧
      ∀ target out, (target, out) ∈ sent ↔ target ∈ targets ∧ out = f := by
  induction targets generalizing st with
  | nil =>
    cases ok
    exact ⟨[], .nil _, by simp⟩
  | cons t targets ih =>
    rw [arriveAll] at ok
    obtain ⟨st₁, first, ok₁⟩ := answer_bind_eq_ok.1 ok
    obtain ⟨sent, receives, all⟩ := ih ok₁
    refine ⟨_, .cons first receives, fun target out => ?_⟩
    simp only [List.mem_cons, Prod.mk.injEq, all]
    constructor
    · rintro (⟨rfl, rfl⟩ | ⟨member, rfl⟩) <;> simp_all
    · rintro ⟨rfl | member, rfl⟩ <;> simp_all

end FlowState

namespace FlowGraph

open FlowState

theorem walk_ok {code : List Located}
    (ok : answer (g.walk H.source f st code) = .ok (out, st')) :
    g.follow f code = .ok out ∧ ∃ sent, Receives H sent st st' ∧
      ∀ target out, (target, out) ∈ sent ↔ g.Raises f code target out := by
  induction code generalizing f st with
  | nil =>
    cases ok
    refine ⟨rfl, [], .nil _, fun target out => ?_⟩
    simp only [List.not_mem_nil, false_iff]
    rintro ⟨⟩
  | cons located code ih =>
    rw [walk, answer_bind, answer_ofExcept] at ok
    obtain ⟨after, step, ok₁⟩ := bind_eq_ok.1 ok
    obtain ⟨st₁, raised, ok₂⟩ := answer_bind_eq_ok.1 ok₁
    obtain ⟨sent, receives, all⟩ := raise_ok raised
    obtain ⟨follow, sent', receives', all'⟩ := ih ok₂
    refine ⟨?_, sent ++ sent', .append (.see _ (.see _ receives)) receives',
      fun target out => ?_⟩
    · rw [FlowGraph.follow, step]
      exact follow
    · simp only [List.mem_append, all, all', List.mem_filter]
      constructor
      · rintro (⟨c, ⟨clause, covers⟩, rfl, rfl | rfl⟩ | raises)
        · exact .before step clause covers
        · exact .after step clause covers
        · exact .later step raises
      · intro raises
        cases raises with
        | before _ clause covers => exact .inl ⟨_, ⟨clause, covers⟩, rfl, .inl rfl⟩
        | after step' clause covers =>
          rw [step] at step'
          cases step'
          exact .inl ⟨_, ⟨clause, covers⟩, rfl, .inr rfl⟩
        | later step' raises =>
          rw [step] at step'
          cases step'
          exact .inr raises

/-- A visit lets exactly what the block sends arrive. -/
theorem visit_ok (nonempty : b.code ≠ []) (ok : answer (g.visit H.source b f st) = .ok st') :
    (∃ out targets, g.Passes b f out targets) ∧ ∃ sent, Receives H sent st st' ∧
      ∀ target out, (target, out) ∈ sent ↔ g.Sends b f target out := by
  rw [visit] at ok
  obtain ⟨⟨out, st₁⟩, walked, ok₁⟩ := answer_bind_eq_ok.1 ok
  obtain ⟨follow, sent, receives, all⟩ := walk_ok walked
  cases last? : b.code.getLast? with
  | none => exact absurd (List.getLast?_eq_none_iff.1 last?) nonempty
  | some last =>
    simp only [last?] at ok₁
    rw [answer_bind, answer_ofExcept] at ok₁
    obtain ⟨targets, successors, ok₂⟩ := bind_eq_ok.1 ok₁
    obtain ⟨sent', receives', all'⟩ := arriveAll_ok ok₂
    have passes : g.Passes b f out targets := ⟨follow, last, last?, successors⟩
    refine ⟨⟨out, targets, passes⟩, sent ++ sent', receives.append receives', fun target frame => ?_⟩
    simp only [List.mem_append, all, all']
    constructor
    · rintro (raises | ⟨member, rfl⟩)
      · exact .raises raises
      · exact .leaves passes member
    · intro sends
      cases sends with
      | raises raises => exact .inl raises
      | leaves passes' member =>
        obtain ⟨follow', last', last'?, successors'⟩ := passes'
        rw [follow] at follow'
        cases follow'
        rw [last?] at last'?
        cases last'?
        rw [successors] at successors'
        cases successors'
        exact .inr ⟨member, rfl⟩

end FlowGraph

end StackMaps
