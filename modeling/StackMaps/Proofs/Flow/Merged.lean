import StackMaps.Proofs.Flow.Moves
import StackMaps.Proofs.Frame.Paired

/-! Merges over any source of class headers. Two types merge to the type that both are, or two
references to an object; which object this is, is all that the source has a say in. -/

namespace StackMaps

open MonadAttach LawfulMonadAttach

variable {m : Type → Type} [Monad m] [LawfulMonad m] [MonadAttach m] [LawfulMonadAttach m]
  {s : HeaderSource m}

namespace FlowType

variable {a b t : FlowType}

theorem merge_returns (returns : CanReturn (merge s a b) (some t)) :
    a = t ∧ b = t ∨ (∃ r, t = .object r) ∧ a.isReference = true ∧ b.isReference = true := by
  unfold merge at returns
  split at returns
  next same =>
    cases eq_of_canReturn_pure returns
    exact .inl ⟨rfl, same.symm⟩
  next =>
    split at returns
    · cases eq_of_canReturn_pure returns
      exact .inr ⟨⟨_, rfl⟩, rfl, rfl⟩
    · cases eq_of_canReturn_pure returns
      exact .inr ⟨⟨_, rfl⟩, rfl, rfl⟩
    · obtain ⟨r, _, returns⟩ := canReturn_bind_imp' returns
      cases eq_of_canReturn_pure returns
      exact .inr ⟨⟨_, rfl⟩, rfl, rfl⟩
    · cases eq_of_canReturn_pure returns

theorem mergeLocal_returns (returns : CanReturn (mergeLocal s a b) t) :
    t = .top ∨ a = t ∧ b = t ∨
      (∃ r, t = .object r) ∧ a.isReference = true ∧ b.isReference = true := by
  unfold mergeLocal at returns
  obtain ⟨merged, merges, returns⟩ := canReturn_bind_imp' returns
  have same := eq_of_canReturn_pure returns
  cases merged with
  | none => exact .inl same.symm
  | some u =>
    cases same
    exact .inr (merge_returns merges)

end FlowType

namespace Frame

/-- A merge of two frames that a source can give. Of the locals only those are merged that both have. -/
structure MergedBy (s : HeaderSource m) (f g t : Frame) : Prop where
  locals : Zipped (fun a b t => CanReturn (FlowType.mergeLocal s a b) t)
    (f.locals.take g.locals.length) (g.locals.take f.locals.length) t.locals
  stack : Zipped (fun a b t => CanReturn (FlowType.merge s a b) (some t)) f.stack g.stack t.stack

theorem mergeStackOnto_returns {done as bs ts : List FlowType}
    (returns : CanReturn (mergeStackOnto s done as bs) (some ts)) :
    ∃ merged, ts = merged.reverse ++ done ∧
      Zipped (fun a b t => CanReturn (FlowType.merge s a b) (some t)) (as.take bs.length)
        (bs.take as.length) merged := by
  induction as generalizing done bs with
  | nil =>
    simp only [mergeStackOnto] at returns
    cases eq_of_canReturn_pure returns
    exact ⟨[], rfl, by simpa using .nil⟩
  | cons a as ih =>
    cases bs with
    | nil =>
      simp only [mergeStackOnto] at returns
      cases eq_of_canReturn_pure returns
      exact ⟨[], rfl, by simpa using .nil⟩
    | cons b bs =>
      rw [mergeStackOnto] at returns
      obtain ⟨merged, merges, returns⟩ := canReturn_bind_imp' returns
      cases merged with
      | none => cases eq_of_canReturn_pure returns
      | some t =>
        obtain ⟨merged, rfl, zipped⟩ := ih returns
        exact ⟨t :: merged, by simp, .cons merges zipped⟩

theorem mergeLocalsOnto_returns {done as bs ts : List FlowType}
    (returns : CanReturn (mergeLocalsOnto s done as bs) ts) :
    ∃ merged, ts = done.reverse ++ merged ∧
      Zipped (fun a b t => CanReturn (FlowType.mergeLocal s a b) t) (as.take bs.length)
        (bs.take as.length) merged := by
  induction as generalizing done bs with
  | nil =>
    simp only [mergeLocalsOnto] at returns
    cases eq_of_canReturn_pure returns
    exact ⟨[], by simp, by simpa using .nil⟩
  | cons a as ih =>
    cases bs with
    | nil =>
      simp only [mergeLocalsOnto] at returns
      cases eq_of_canReturn_pure returns
      exact ⟨[], by simp, by simpa using .nil⟩
    | cons b bs =>
      rw [mergeLocalsOnto] at returns
      obtain ⟨t, merges, returns⟩ := canReturn_bind_imp' returns
      obtain ⟨merged, rfl, zipped⟩ := ih returns
      exact ⟨t :: merged, by simp, .cons merges zipped⟩

theorem mergedBy_of_merge {n : Nat} {f g t : Frame} (returns : CanReturn (merge s n f g) t) :
    MergedBy s f g t := by
  unfold merge at returns
  simp only at returns
  split at returns
  next =>
    obtain ⟨_, thrown, _⟩ := canReturn_bind_imp' returns
    exact absurd thrown not_canReturn_throw
  next heights =>
    have heights : f.stack.length = g.stack.length := by simpa using heights
    obtain ⟨stack?, tops, returns⟩ := canReturn_bind_imp' returns
    cases stack? with
    | none => exact absurd returns not_canReturn_throw
    | some stack =>
      obtain ⟨locals, slots, returns⟩ := canReturn_bind_imp' returns
      obtain rfl := eq_of_canReturn_pure returns
      obtain ⟨onStack, rfl, entries⟩ := mergeStackOnto_returns (canReturn_of_adapt tops)
      obtain ⟨inLocals, rfl, zipped⟩ := mergeLocalsOnto_returns (canReturn_of_adapt slots)
      rw [List.take_of_length_le (by simp [heights]), List.take_of_length_le (by simp [heights])] at entries
      exact ⟨by simpa using zipped, by simpa using entries.reverse⟩

end Frame

end StackMaps
