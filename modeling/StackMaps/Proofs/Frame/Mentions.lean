import StackMaps.Proofs.ClassFile.Pool
import StackMaps.Proofs.Descriptor
import StackMaps.Proofs.Frame.Merge
import StackMaps.Proofs.Frame.Transfer

/-! The types that come up in a method are those that its constants name, their elements, and arrays
of its class constants. So the classes in them are named somewhere, and no type has more dimensions
than the longest text has characters, and one. -/

namespace StackMaps

variable {K : BinaryName → Prop} {D : Nat} {c : MethodContext}

def FieldType.Names (K : BinaryName → Prop) : FieldType → Prop
  | .base _ => True
  | .ref r => r.Names K

theorem FieldType.names_true (t : FieldType) : t.Names fun _ => True := by
  cases t with
  | base b => trivial
  | ref r => exact r.names_true

def FieldType.dimensions : FieldType → Nat
  | .base _ => 0
  | .ref r => r.dimensions

theorem RefType.dimensions_le (r : RefType) :
    r.dimensions ≤ r.chars.length ∧ r.dimensions ≤ r.className.toList.length := by
  cases r with
  | object n => exact ⟨Nat.zero_le _, Nat.zero_le _⟩
  | array i e => simp [dimensions, className, render, chars]

theorem FieldType.dimensions_le (t : FieldType) : t.dimensions ≤ t.chars.length := by
  cases t with
  | base b => exact Nat.zero_le _
  | ref r => exact r.dimensions_le.1

theorem MethodDescriptor.dimensions_le {d : MethodDescriptor} {t : FieldType}
    (there : t ∈ d.parameters ∨ d.result = some t) : t.dimensions ≤ d.chars.length := by
  refine Nat.le_trans t.dimensions_le ?_
  obtain there | there := there
  · have part := (List.sublist_flatten_of_mem (List.mem_map_of_mem (f := FieldType.chars) there)).length_le
    simp only [chars, List.flatMap, List.length_cons, List.length_append]
    omega
  · simp only [chars, there, List.length_cons, List.length_append]
    omega

/-- The types that constants of a method put on the stack. -/
inductive MethodContext.Mentions (c : MethodContext) : FieldType → Prop
  | constant {i : ConstantIndex} {r : RefType} (ok : c.constantType i = .ok (.object r)) :
    Mentions c (.ref r)
  | cls {i : ConstantIndex} {r : RefType} (ok : c.classType i = .ok r) : Mentions c (.ref r)
  | field {i : ConstantIndex} {t : FieldType} (ok : c.fieldType i = .ok t) : Mentions c t
  | method {i : ConstantIndex} {name : String} {d : MethodDescriptor} {t : FieldType}
      (ok : c.method i = .ok (name, d)) (result : d.result = some t) : Mentions c t
  | callSite {i : ConstantIndex} {d : MethodDescriptor} {t : FieldType}
      (ok : c.callSite i = .ok d) (result : d.result = some t) : Mentions c t

theorem mapError_eq_ok {ε ε' α : Type} {f : ε → ε'} {x : Except ε α} {a : α} :
    x.mapError f = .ok a ↔ x = .ok a := by
  cases x <;> simp [Except.mapError]

theorem MethodContext.classType_dimensions {i : ConstantIndex} {r : RefType}
    (ok : c.classType i = .ok r) : r.dimensions ≤ c.pool.longestText := by
  have ok := mapError_eq_ok.1 ok
  unfold Pool.classType at ok
  split at ok
  next => cases ok
  next name found =>
    have named := RefType.ofClassName_eq_ok.1 (mapError_eq_ok.1 ok)
    refine Nat.le_trans r.dimensions_le.2 ?_
    rw [← named]
    exact Pool.className_length found

theorem MethodContext.fieldType_dimensions {i : ConstantIndex} {t : FieldType}
    (ok : c.fieldType i = .ok t) : t.dimensions ≤ c.pool.longestText := by
  unfold fieldType at ok
  split at ok
  next => cases ok
  next owner name descriptor found =>
    have written := FieldType.parse_eq_ok.1 (mapError_eq_ok.1 ok)
    refine Nat.le_trans t.dimensions_le ?_
    rw [← written]
    exact Pool.member_length found

theorem MethodContext.Mentions.dimensions_le {t : FieldType} (mentions : c.Mentions t) :
    t.dimensions ≤ c.pool.longestText := by
  have descriptor : ∀ (d : MethodDescriptor) (text : String), MethodDescriptor.parse text = .ok d →
      d.result = some t → text.toList.length ≤ c.pool.longestText →
      t.dimensions ≤ c.pool.longestText := by
    intro d text parsed result short
    rw [MethodDescriptor.parse_eq_ok.1 parsed] at short
    exact Nat.le_trans (MethodDescriptor.dimensions_le (.inr result)) short
  cases mentions with
  | cls ok => exact classType_dimensions ok
  | field ok => exact fieldType_dimensions ok
  | method ok result =>
    unfold MethodContext.method at ok
    split at ok
    next => cases ok
    next found =>
      split at ok
      next parsed =>
        cases ok
        exact descriptor _ _ parsed result (Pool.member_length found)
      next => cases ok
  | callSite ok result =>
    unfold MethodContext.callSite at ok
    split at ok
    next =>
      split at ok
      next => cases ok
      next found =>
        exact descriptor _ _ (mapError_eq_ok.1 ok) result (Pool.nameAndType_length found)
    next => cases ok
  | constant ok =>
    unfold MethodContext.constantType at ok
    split at ok
    case h_9 =>
      split at ok
      next => cases ok
      next found =>
        split at ok
        next s parsed =>
          have whole := FieldType.parse_eq_ok.1 parsed
          cases s with
          | base b => cases b <;> cases ok
          | ref r =>
            cases ok
            refine Nat.le_trans (FieldType.dimensions_le _) ?_
            rw [← whole]
            exact Pool.nameAndType_length found
        next => cases ok
    all_goals
      cases ok
      try exact Nat.zero_le _

theorem FlowType.within_basic {t : FlowType} (basic : t.IsBasic) : t.Within K D := by
  cases t <;> trivial

theorem FlowType.within_ofField {t : FieldType} (names : t.Names K) (less : t.dimensions ≤ D) :
    Within K D (.ofField t) := by
  cases t with
  | base b => cases b <;> trivial
  | ref r => exact RefType.within_iff.2 ⟨names, less⟩

theorem MethodContext.constantType_cases {i : ConstantIndex} {t : FlowType}
    (ok : c.constantType i = .ok t) : t.IsBasic ∨ ∃ r, t = .object r := by
  unfold MethodContext.constantType at ok
  split at ok
  case h_9 =>
    split at ok
    next => cases ok
    next =>
      split at ok
      next s _ =>
        cases ok
        cases s with
        | base b => exact .inl (by cases b <;> trivial)
        | ref r => exact .inr ⟨r, rfl⟩
      next => cases ok
  case h_10 => cases ok
  case h_1 | h_2 | h_3 | h_4 =>
    cases ok
    exact .inl trivial
  all_goals
    cases ok
    exact .inr ⟨_, rfl⟩

/-- No instruction leads out of the types whose classes are in `K` and that do not have more than `D`
dimensions, if the constants of the method do not. -/
theorem keeps_within (known : ∀ t, c.Mentions t → t.Names K) (this : c.thisType.Within K D)
    (enough : c.pool.longestText < D) : Keeps (FlowType.Within K D) c := by
  have within : ∀ t, c.Mentions t → FlowType.Within K D (.ofField t) := fun t mentions =>
    FlowType.within_ofField (known t mentions)
      (Nat.le_trans mentions.dimensions_le (Nat.le_of_lt enough))
  exact {
    basic := fun _ => FlowType.within_basic
    top := trivial
    component := fun r t there component => by
      cases r with
      | object n => cases component
      | array i e =>
        obtain ⟨names, less⟩ := there
        cases i with
        | zero =>
          cases component
          cases e with
          | base b => cases b <;> trivial
          | object n => exact names
        | succ i =>
          cases component
          exact ⟨names, by omega⟩
    initialized := fun _ there => there
    array := fun _ => ⟨trivial, by omega⟩
    this := this
    constantType := fun i t ok => by
      obtain basic | ⟨r, rfl⟩ := MethodContext.constantType_cases ok
      · exact FlowType.within_basic basic
      · exact within _ (.constant ok)
    classType := fun i r ok => by
      have named := known _ (.cls ok)
      have less := (MethodContext.Mentions.cls ok).dimensions_le
      refine ⟨within _ (.cls ok), RefType.within_iff.2 ?_⟩
      cases r with
      | object n => exact ⟨named, by simp only [RefType.arrayOf, RefType.dimensions]; omega⟩
      | array j e =>
        simp only [FieldType.dimensions, RefType.dimensions] at less
        exact ⟨named, by simp only [RefType.arrayOf, RefType.dimensions]; omega⟩
    fieldType := fun i t ok => within t (.field ok)
    method := fun i n d ok t result => within t (.method ok result)
    callSite := fun i d ok t result => within t (.callSite ok result) }

end StackMaps
