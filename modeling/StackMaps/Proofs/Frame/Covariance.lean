import StackMaps.Hierarchy.ClassGraph
import StackMaps.Proofs.Frame.Assignable
import StackMaps.Proofs.Frame.Transfer

/-! An instruction that passes on a frame passes on every frame that can be used in its place, and
leaves one that can be used in place of what it would have left. Types are taken apart in one way
only, by indexing arrays, and what an array holds can be used as what is held by any array that it can
be used as. -/

namespace StackMaps

variable {H : Hierarchy} {c : MethodContext} {f g g' : Frame}

inductive FieldType.Assignable (H : Hierarchy) : FieldType → FieldType → Prop
  | base (b : BaseType) : FieldType.Assignable H (.base b) (.base b)
  | ref {a b : RefType} (assignable : H.isAssignable a b = true) :
    FieldType.Assignable H (.ref a) (.ref b)

theorem ElementType.toField_assignable {a b : ElementType}
    (assignable : H.isAssignable (.array 0 a) (.array 0 b) = true) :
    FieldType.Assignable H a.toField b.toField := by
  cases a <;> cases b
  case base.base a b =>
    obtain ⟨⟩ := of_decide_eq_true (p := ElementType.base a = .base b) assignable
    exact .base a
  case object.object a b => exact .ref assignable
  all_goals cases assignable

theorem RefType.component_assignable {a b : RefType} {t : FieldType}
    (assignable : H.isAssignable a b = true) (component : b.component? = some t) :
    ∃ s, a.component? = some s ∧ FieldType.Assignable H s t := by
  cases b with
  | object b => cases component
  | array j b =>
    cases a with
    | object a => cases assignable
    | array i a =>
      cases i with
      | zero =>
        cases j with
        | zero =>
          cases component
          exact ⟨_, rfl, ElementType.toField_assignable assignable⟩
        | succ j => cases assignable
      | succ i =>
        refine ⟨_, rfl, ?_⟩
        cases j with
        | succ j =>
          cases component
          exact .ref assignable
        | zero =>
          cases component
          -- Only a class above all arrays can stand for the dimensions that are left.
          cases b with
          | base b => cases assignable
          | object b => exact .ref assignable

theorem isSubtyping_assignable (H : Hierarchy) : IsSubtyping (FlowType.Assignable H) where
  same := .same
  null := .null
  shape a b assignable := by
    cases assignable with
    | same => exact .inl rfl
    | null r => exact .inr ⟨.inl rfl, r, rfl⟩
    | object _ => exact .inr ⟨.inr ⟨_, rfl⟩, _, rfl⟩
  component a b t assignable component := by
    cases assignable with
    | same => exact ⟨t, component, .inl rfl⟩
    | object assignable =>
      obtain ⟨s, component, elements⟩ := RefType.component_assignable assignable component
      refine ⟨s, component, ?_⟩
      cases elements with
      | base b => exact .inl rfl
      | ref assignable => exact .inr ⟨_, _, rfl, rfl, .object assignable⟩

namespace Frame

/-- Whatever an instruction does to a frame it does to every frame that can be used in its place, and
the results are related as the frames were. -/
theorem step_assignable (assignable : f.Assignable H g) {offset : Nat} {i : Instruction}
    (ok : step c offset i g = .ok g') : ∃ f', step c offset i f = .ok f' ∧ f'.Assignable H g' :=
  step_follows ((isSubtyping_assignable H).simulates c) offset offset i (fun _ _ _ _ => .same _) assignable g' ok

theorem step_assignable_arrayLoad :
    Frame.Assignable (ClassGraph.standard.hierarchy .empty)
      ⟨[.float], [.int, .object (.array 0 (.object .exception))]⟩
      ⟨[.top], [.int, .object (.array 0 (.object .throwable))]⟩ ∧
    step ⟨.empty, .object .object, none⟩ 0 (.straight (.arrayLoad .reference))
      ⟨[.top], [.int, .object (.array 0 (.object .throwable))]⟩ =
        .ok ⟨[.top], [.object (.object .throwable)]⟩ ∧
    ∃ f', step ⟨.empty, .object .object, none⟩ 0 (.straight (.arrayLoad .reference))
        ⟨[.float], [.int, .object (.array 0 (.object .exception))]⟩ = .ok f' ∧
      f'.Assignable (ClassGraph.standard.hierarchy .empty)
        ⟨[.top], [.object (.object .throwable)]⟩ := by
  have assignable : Frame.Assignable (ClassGraph.standard.hierarchy .empty)
      ⟨[.float], [.int, .object (.array 0 (.object .exception))]⟩
      ⟨[.top], [.int, .object (.array 0 (.object .throwable))]⟩ :=
    ⟨.cons (.inl rfl) .nil, .cons (.same _) (.cons (.object (by decide +kernel)) .nil)⟩
  exact ⟨assignable, rfl, step_assignable assignable rfl⟩

end Frame

end StackMaps
