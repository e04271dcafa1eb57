import StackMaps.Proofs.Frame.Order
import StackMaps.Proofs.Hierarchy.Assignable

/-! A type below another one in the order of superclasses can be used as the other one. -/

namespace StackMaps

variable {H : Hierarchy}

/-- Whether a value of one type can be used where one of the other is expected. -/
inductive FlowType.Assignable (H : Hierarchy) : FlowType → FlowType → Prop
  | same (t : FlowType) : FlowType.Assignable H t t
  | null (r : RefType) : FlowType.Assignable H .null (.object r)
  | object {a b : RefType} (assignable : H.isAssignable a b = true) :
    FlowType.Assignable H (.object a) (.object b)

/-- Whether a frame can be used where another one is expected. A local can always be given up. -/
abbrev Frame.Assignable (H : Hierarchy) : Frame → Frame → Prop :=
  Frame.Related (fun a b => b = .top ∨ FlowType.Assignable H a b) (FlowType.Assignable H)

/-- Whether one type can be used as another one, where classes in the relation `R` can: an array as all
that arrays are, and as an array of it. -/
def RefType.Conforms (R : BinaryName → BinaryName → Prop) : RefType → RefType → Prop
  | .object a, .object b => R a b
  | .array _ _, .object b => HeaderSource.isAboveArrays b = true
  | .object _, .array _ _ => False
  | .array i a, .array j b =>
    i = j ∧ a.Below R b ∨ j < i ∧ ∃ n, b = .object n ∧ HeaderSource.isAboveArrays n = true

theorem isArrayAssignable_iff {a b : ElementType} {i j : Nat} :
    (H.source.isArrayAssignable a b i j : Bool) = true ↔
      (RefType.array i a).Conforms (fun c d => H.isSubclass c d = true) (.array j b) := by
  induction i generalizing j with
  | zero =>
    cases j with
    | zero =>
      cases a <;> cases b <;>
        simp only [HeaderSource.isArrayAssignable, RefType.Conforms, ElementType.Below, pure,
          Hierarchy.isSubclass, true_and, Nat.lt_irrefl, false_and, or_false]
      all_goals exact decide_eq_true_iff.trans (by simp)
    | succ j => simp [HeaderSource.isArrayAssignable, RefType.Conforms, pure]
  | succ i ih =>
    cases j with
    | zero =>
      cases b <;> simp [HeaderSource.isArrayAssignable, RefType.Conforms, pure]
    | succ j =>
      rw [HeaderSource.isArrayAssignable, ih]
      simp [RefType.Conforms]

theorem Hierarchy.isAssignable_iff {a b : RefType} :
    H.isAssignable a b = true ↔ a.Conforms (fun c d => H.isSubclass c d = true) b := by
  cases a <;> cases b
  case array.array => exact isArrayAssignable_iff
  all_goals
    simp [isAssignable, HeaderSource.isAssignable, RefType.Conforms, pure, isSubclass]

theorem ElementType.Below.imp {R S : BinaryName → BinaryName → Prop} (le : ∀ c d, R c d → S c d)
    {a b : ElementType} (below : a.Below R b) : a.Below S b := by
  cases a <;> cases b
  case object.object a b => exact le a b below
  all_goals exact below

theorem RefType.Below.assignable {a b : RefType} (below : a.Below H.Under b) :
    H.isAssignable a b = true := by
  refine Hierarchy.isAssignable_iff.2 ?_
  cases a with
  | object a =>
    cases b with
    | object b => exact Hierarchy.isSubclass_of_under below
    | array j b => exact below.elim
  | array i a =>
    cases b with
    | object b =>
      cases (show b = .object from below)
      rfl
    | array j b =>
      exact below.imp
        (fun ⟨same, below⟩ => ⟨same, below.imp fun _ _ => Hierarchy.isSubclass_of_under⟩)
        (fun ⟨deeper, top⟩ => ⟨deeper, .object, top, rfl⟩)

theorem FlowType.Below.assignable {a b : FlowType} (below : FlowType.Below H.Under a b) :
    FlowType.Assignable H a b := by
  cases below with
  | same => exact .same _
  | null r => exact .null r
  | object below => exact .object below.assignable

theorem Frame.Below.assignable {f g : Frame} (below : f.Below H.Under g) : f.Assignable H g :=
  ⟨below.locals.imp fun _ _ below => below.imp_right FlowType.Below.assignable,
    below.stack.imp fun _ _ below => below.assignable⟩

end StackMaps
