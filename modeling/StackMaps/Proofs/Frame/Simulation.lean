import StackMaps.Proofs.Frame.Order
import StackMaps.Proofs.Frame.Rules

/-! An instruction does alike to frames that are alike. `Simulates` lists what relations between the
types of two frames, and between the contexts that they are checked in, have to satisfy for this. What
the rules ask of a type then goes over to the types related to it. -/

namespace StackMaps

def Follows {ε α β : Type} (T : α → β → Prop) (x : Except ε α) (y : Except ε β) : Prop :=
  ∀ b, y = .ok b → ∃ a, x = .ok a ∧ T a b

def FlowType.IsBasic : FlowType → Prop
  | .int | .float | .long | .double | .null => True
  | _ => False

theorem FlowType.ofField_ne_top (t : FieldType) : (.ofField t : FlowType) ≠ .top := by
  cases t with
  | base b => cases b <;> exact nofun
  | ref r => exact nofun

/-- `S` relates stack entries and `L` locals of two frames, the first checked in context `c'` and
the second in context `c`. -/
structure Simulates (L S : FlowType → FlowType → Prop) (c' c : MethodContext) : Prop where
  basic : ∀ t, t.IsBasic → S t t
  shape : ∀ a b, S a b → a = b ∨ (a = .null ∨ ∃ r, a = .object r) ∧ (∃ r, b = .object r) ∨
    (∃ made, a = .uninitialized made) ∧ ∃ made, b = .uninitialized made
  component : ∀ a r t, S a (.object r) → r.component? = some t →
    a = .null ∧ (∀ n, t = .ref n → S .null (.object n)) ∨
      ∃ r' t', a = .object r' ∧ r'.component? = some t' ∧
        (t' = t ∨ (∃ n, t' = .ref n) ∧ ∃ n, t = .ref n) ∧ S (.ofField t') (.ofField t)
  toLocal : ∀ a b, S a b → L a b
  toStack : ∀ a b, L a b → b ≠ .top → S a b
  top : L .top .top
  forget : ∀ a, L a .top → a = .top ∨ ∀ b, L b .top
  initialized : ∀ a b : NewObject, S (.uninitialized a) (.uninitialized b) →
    S (.object a.type) (.object b.type)
  alike : ∀ a b a' b' : NewObject, S (.uninitialized a) (.uninitialized b) →
    S (.uninitialized a') (.uninitialized b') → (a = a' ↔ b = b')
  array : ∀ e, S (.object (.arrayOf (.base e))) (.object (.arrayOf (.base e)))
  thisType : c'.thisType = c.thisType
  this : S (.object c.thisType) (.object c.thisType)
  result : c'.result = c.result
  constantType : ∀ i t, c.constantType i = .ok t → c'.constantType i = .ok t ∧ S t t
  classType : ∀ i r, c.classType i = .ok r → c'.classType i = .ok r ∧
    S (.object r) (.object r) ∧ S (.object (.arrayOf (.ref r))) (.object (.arrayOf (.ref r)))
  fieldType : ∀ i t, c.fieldType i = .ok t → c'.fieldType i = .ok t ∧ S (.ofField t) (.ofField t)
  method : ∀ i n d, c.method i = .ok (n, d) → c'.method i = .ok (n, d) ∧
    ∀ t, d.result = some t → S (.ofField t) (.ofField t)
  callSite : ∀ i d, c.callSite i = .ok d → c'.callSite i = .ok d ∧
    ∀ t, d.result = some t → S (.ofField t) (.ofField t)

variable {L S : FlowType → FlowType → Prop} {c' c : MethodContext}

namespace Simulates

theorem eq_of_basic (sim : Simulates L S c' c) {a b : FlowType} (related : S a b)
    (basic : b.IsBasic) : a = b := by
  obtain same | ⟨_, _, rfl⟩ | ⟨_, _, rfl⟩ := sim.shape a b related
  · exact same
  · exact basic.elim
  · exact basic.elim

theorem width_eq (sim : Simulates L S c' c) {a b : FlowType} (related : S a b) :
    width a = width b := by
  obtain rfl | ⟨rfl | ⟨_, rfl⟩, _, rfl⟩ | ⟨⟨_, rfl⟩, _, rfl⟩ := sim.shape a b related <;> rfl

theorem isReference_eq (sim : Simulates L S c' c) {a b : FlowType} (related : S a b) :
    a.isReference = b.isReference := by
  obtain rfl | ⟨rfl | ⟨_, rfl⟩, _, rfl⟩ | ⟨⟨_, rfl⟩, _, rfl⟩ := sim.shape a b related <;> rfl

end Simulates

theorem isBasic_numeric (n : Numeric) : FlowType.IsBasic n.type := by cases n <;> trivial

theorem isBasic_value (kind : ArrayKind) : FlowType.IsBasic kind.value := by
  obtain n | _ | _ | _ | _ := kind
  · exact isBasic_numeric n
  all_goals trivial

theorem isBasic_ofField (b : BaseType) : FlowType.IsBasic (.ofField (.base b)) := by
  cases b <;> trivial

theorem ArrayKind.holds_ref (kind : ArrayKind) (m n : RefType) :
    kind.holds (.ref m) = kind.holds (.ref n) := by
  obtain (_ | _ | _ | _) | _ | _ | _ | _ := kind <;> rfl

/-- Elements of two arrays that are popped, of which the first may be `null`. -/
def OperandStack.Elements (S : FlowType → FlowType → Prop) (holds : FieldType → Bool)
    (x y : Option FieldType) : Prop :=
  (∀ t, y = some t → holds t = true) ∧
    (x = none ∧ (∀ n, y = some (.ref n) → S .null (.object n)) ∨
      ∃ t' t, x = some t' ∧ y = some t ∧ S (.ofField t') (.ofField t))

namespace Simulates

variable {a b : FlowType} {ts' ts : List FlowType}

theorem totalWidth_eq (sim : Simulates L S c' c) (related : List.Forall₂ S ts' ts) :
    totalWidth ts' = totalWidth ts := by
  induction related with
  | nil => rfl
  | cons first _ ih => rw [totalWidth, totalWidth, sim.width_eq first, ih]

theorem eq_of_all_basic (sim : Simulates L S c' c) (basic : ∀ t ∈ ts, t.IsBasic)
    (related : List.Forall₂ S ts' ts) : ts' = ts := by
  induction related with
  | nil => rfl
  | cons first _ ih =>
    obtain ⟨head, tail⟩ := List.forall_mem_cons.1 basic
    rw [sim.eq_of_basic first head, ih tail]

theorem moves (sim : Simulates L S c' c) (related : S a b) {kind : ValueKind}
    (moves : kind.Moves b) : kind.Moves a := by
  cases kind with
  | numeric n =>
    obtain rfl : b = n.type := moves
    exact sim.eq_of_basic related (isBasic_numeric n)
  | reference => exact (sim.isReference_eq related).trans moves

theorem stores (sim : Simulates L S c' c) (related : S a b) {kind : ArrayKind}
    (stores : kind.Stores b) : kind.Stores a := by
  have plain (same : b = kind.value) : a = kind.value := by
    subst same
    exact sim.eq_of_basic related (isBasic_value kind)
  cases kind with
  | reference => exact (sim.isReference_eq related).trans stores
  | _ => exact plain stores

theorem accepts (sim : Simulates L S c' c) (related : S a b) {t : FieldType}
    (accepts : t.Accepts b) : t.Accepts a := by
  cases t with
  | base e =>
    obtain rfl : b = .ofField (.base e) := accepts
    exact sim.eq_of_basic related (isBasic_ofField e)
  | ref r => exact (sim.isReference_eq related).trans accepts

theorem accepts_all (sim : Simulates L S c' c) (related : List.Forall₂ S ts' ts)
    {parameters : List FieldType} (accepts : List.Forall₂ FieldType.Accepts parameters ts) :
    List.Forall₂ FieldType.Accepts parameters ts' := by
  induction related generalizing parameters with
  | nil => exact accepts
  | cons first _ ih =>
    cases accepts with
    | cons head tail => exact .cons (sim.accepts first head) (ih tail)

theorem elements (sim : Simulates L S c' c) (related : S a b) {holds : FieldType → Bool}
    (alike : ∀ m n, holds (.ref m) = holds (.ref n)) {y : Option FieldType}
    (elements : b.HasElements holds y) :
    ∃ x, a.HasElements holds x ∧ OperandStack.Elements S holds x y := by
  cases elements with
  | null =>
    cases sim.eq_of_basic related trivial
    exact ⟨none, .null, nofun, .inl ⟨rfl, nofun⟩⟩
  | @array r t component held =>
    have all : ∀ u, some t = some u → holds u = true := fun u same => Option.some.inj same ▸ held
    obtain ⟨rfl, null⟩ | ⟨r', t', rfl, component', same, types⟩ := sim.component a r t related component
    · exact ⟨none, .null, all, .inl ⟨rfl, fun n same => null n (Option.some.inj same)⟩⟩
    · refine ⟨some t', .array component' ?_, all, .inr ⟨t', t, rfl, rfl, types⟩⟩
      obtain rfl | ⟨⟨m, rfl⟩, n, rfl⟩ := same
      · exact held
      · rw [alike m n, held]

theorem loaded (sim : Simulates L S c' c) {kind : ArrayKind} {x y : Option FieldType}
    (elements : OperandStack.Elements S kind.holds x y) : S (kind.loaded x) (kind.loaded y) := by
  have plain := sim.basic _ (isBasic_value kind)
  cases kind with
  | reference =>
    obtain ⟨held, ⟨rfl, null⟩ | ⟨t', t, rfl, rfl, types⟩⟩ := elements
    · obtain _ | _ | n := y
      · exact plain
      · cases held _ rfl
      · exact null n rfl
    · exact types
  | _ => exact plain

end Simulates

end StackMaps
