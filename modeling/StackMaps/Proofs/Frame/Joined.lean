import StackMaps.Proofs.Frame.FrameMerge
import StackMaps.Proofs.Hierarchy.Complete

/-! A type is below another one in the order of frames exactly if their merge is the other one, where
a class is below another one if their common superclass is the other one. -/

namespace StackMaps

variable {H : Hierarchy}

theorem ElementType.below_joinsTo {a b : ElementType} :
    a.Below H.JoinsTo b ↔ answer (RefType.mergeArrays H.source a b 0 0) = .ok (.array 0 b) := by
  rw [RefType.answer_mergeArrays_zero]
  cases a with
  | object a =>
    cases b with
    | object b => simp [Below, Hierarchy.JoinsTo, map_eq_ok]
    | base b => simp [Below]
  | base a =>
    cases b with
    | object b => simp [Below]
    | base b =>
      simp only [Below]
      split
      next same => simp [same]
      next other => simp [other]

namespace RefType

theorem array_below_joinsTo {a b : ElementType} {i j : Nat} :
    (array i a).Below H.JoinsTo (array j b) ↔
      answer (mergeArrays H.source a b i j) = .ok (array j b) := by
  induction i generalizing j with
  | zero =>
    cases j with
    | zero => simp [Below, ElementType.below_joinsTo]
    | succ j =>
      rw [answer_mergeArrays_right]
      cases a <;> simp [Below]
  | succ i ih =>
    cases j with
    | zero =>
      rw [answer_mergeArrays_left]
      cases b <;> simp [Below, eq_comm]
    | succ j =>
      rw [answer_mergeArrays_succ, map_eq_ok]
      have one : array (j + 1) b = arrayOf (.ref (array j b)) := rfl
      have deeper : (array (i + 1) a).Below H.JoinsTo (array (j + 1) b) ↔
          (array i a).Below H.JoinsTo (array j b) := by
        simp [Below]
      rw [deeper, ih, one]
      constructor
      · intro ok
        exact ⟨_, ok, rfl⟩
      · rintro ⟨r, ok, same⟩
        cases arrayOf_injective same
        exact ok

theorem below_joinsTo {a b : RefType} :
    a.Below H.JoinsTo b ↔ answer (merge H.source a b) = .ok b := by
  rw [answer_merge]
  split
  next same =>
    subst same
    simp only [iff_true]
    cases a with
    | object a => exact Hierarchy.answer_commonSuperclass_self a
    | array i a =>
      refine .inl ⟨rfl, ?_⟩
      cases a with
      | object a => exact Hierarchy.answer_commonSuperclass_self a
      | base a => rfl
  next =>
    cases a with
    | object a =>
      cases b with
      | object b => simp [Below, Hierarchy.JoinsTo, map_eq_ok]
      | array j b => simp [Below]
    | array i a =>
      cases b with
      | object b => simp [Below, eq_comm]
      | array j b => exact array_below_joinsTo

end RefType

namespace FlowType

theorem below_joinsTo {a b : FlowType} :
    FlowType.Below H.JoinsTo a b ↔ answer (merge H.source a b) = .ok (some b) := by
  constructor
  · intro below
    cases below with
    | same t => rw [answer_merge, if_pos rfl]
    | null r => exact (Merges.right r).answer_eq
    | @object a b below =>
      rw [answer_merge]
      split
      next same => rw [same]
      next => simp [RefType.below_joinsTo.1 below]
  · intro ok
    cases merges_of_ok ok with
    | same => exact .same _
    | right r => exact .null r
    | object _ ok => exact .object (RefType.below_joinsTo.2 ok)

theorem localBelow_joinsTo {a b : FlowType} :
    LocalBelow H.JoinsTo a b ↔ answer (mergeLocal H.source a b) = .ok b := by
  rw [answer_mergeLocal, map_eq_ok]
  constructor
  · rintro (rfl | below)
    · refine ⟨if a = .top then some .top else none, ?_, by split <;> rfl⟩
      rw [answer_merge]
      cases a <;> rfl
    · exact ⟨some b, below_joinsTo.1 below, rfl⟩
  · rintro ⟨merged, ok, same⟩
    cases merged with
    | none => exact .inl same.symm
    | some t =>
      cases same
      exact .inr (below_joinsTo.2 ok)

end FlowType

namespace Frame

/-- The merge of two frames is the second one, slot by slot, and nothing on its stack is unusable. -/
structure MergesInto (H : Hierarchy) (f g : Frame) : Prop where
  locals : List.Forall₂ (fun a b => answer (FlowType.mergeLocal H.source a b) = .ok b)
    f.locals g.locals
  stack : List.Forall₂ (fun a b => answer (FlowType.merge H.source a b) = .ok (some b))
    f.stack g.stack
  usable : .top ∉ g.stack

theorem mergesInto_iff {f g : Frame} : f.MergesInto H g ↔ f.Below H.JoinsTo g ∧ .top ∉ g.stack := by
  constructor
  · intro merges
    exact ⟨⟨merges.locals.imp fun _ _ => FlowType.localBelow_joinsTo.2,
      merges.stack.imp fun _ _ => FlowType.below_joinsTo.2⟩, merges.usable⟩
  · rintro ⟨below, usable⟩
    exact ⟨below.locals.imp fun _ _ => FlowType.localBelow_joinsTo.1,
      below.stack.imp fun _ _ => FlowType.below_joinsTo.1, usable⟩

end Frame

end StackMaps
