import StackMaps.Proofs.Frame.Shuffle

/-! What instructions do, as rules. Nearly all of them take some entries from the top of the stack and
leave others in their place; a store writes a local, a constructor call makes its receiver an object
wherever it is, and a throw clears the stack. An instruction passes exactly if one of the rules applies,
and what else is known of instructions is read off the rules. -/

namespace StackMaps

def ValueKind.Moves : ValueKind → FlowType → Prop
  | numeric n, t => t = n.type
  | reference, t => t.isReference = true

def FieldType.Accepts : FieldType → FlowType → Prop
  | base b, t => t = .ofField (.base b)
  | ref _, t => t.isReference = true

inductive FlowType.HasElements (holds : FieldType → Bool) : FlowType → Option FieldType → Prop
  | null : HasElements holds .null none
  | array {r : RefType} {t : FieldType} (component : r.component? = some t) (held : holds t = true) :
    HasElements holds (.object r) (some t)

namespace ArrayKind

def Stores : ArrayKind → FlowType → Prop
  | reference, t => t.isReference = true
  | kind, t => t = kind.value

def loaded : ArrayKind → Option FieldType → FlowType
  | reference, some t => .ofField t
  | kind, _ => kind.value

end ArrayKind

def MethodDescriptor.left (d : MethodDescriptor) : List FlowType := (d.result.map .ofField).toList

open OperandStack LocalSlots

/-- With these locals the instruction takes entries from the top of the stack, the topmost first, and
leaves others, and does nothing else. -/
inductive Instruction.Takes (c : MethodContext) (offset : Nat) (locals : List FlowType) :
    Instruction → (taken left : List FlowType) → Prop
  | effect {s : Straight} {taken left : List FlowType} (effect : s.effect? = some (taken, left)) :
    Takes c offset locals (.straight s) taken left
  | loadConstant {i : ConstantIndex} {t : FlowType} (type : c.constantType i = .ok t)
      (narrow : width t = 1) : Takes c offset locals (.straight (.loadConstant i)) [] [t]
  | loadWideConstant {i : ConstantIndex} {t : FlowType} (type : c.constantType i = .ok t)
      (wide : width t = 2) : Takes c offset locals (.straight (.loadWideConstant i)) [] [t]
  | load {kind : ValueKind} {slot : UInt16} {t : FlowType} (there : read slot locals = .ok t)
      (moves : kind.Moves t) : Takes c offset locals (.straight (.load kind slot)) [] [t]
  | arrayLoad {kind : ArrayKind} {array : FlowType} {element : Option FieldType}
      (elements : array.HasElements kind.holds element) :
    Takes c offset locals (.straight (.arrayLoad kind)) [.int, array] [kind.loaded element]
  | arrayStore {kind : ArrayKind} {value array : FlowType} {element : Option FieldType}
      (stores : kind.Stores value) (elements : array.HasElements kind.holds element) :
    Takes c offset locals (.straight (.arrayStore kind)) [value, .int, array] []
  | stack {op : StackOp} {top below : List FlowType} (taken : totalWidth top = op.taken)
      (under : totalWidth below = op.under) :
    Takes c offset locals (.straight (.stack op)) (top ++ below) (op.rearranged top below)
  | increment {slot : UInt16} {amount : Int16} (there : read slot locals = .ok .int) :
    Takes c offset locals (.straight (.increment slot amount)) [] []
  | getStatic {i : ConstantIndex} {t : FieldType} (type : c.fieldType i = .ok t) :
    Takes c offset locals (.straight (.getStatic i)) [] [.ofField t]
  | putStatic {i : ConstantIndex} {t : FieldType} {value : FlowType} (type : c.fieldType i = .ok t)
      (accepts : t.Accepts value) : Takes c offset locals (.straight (.putStatic i)) [value] []
  | getField {i : ConstantIndex} {t : FieldType} {owner : FlowType} (type : c.fieldType i = .ok t)
      (reference : owner.isReference = true) :
    Takes c offset locals (.straight (.getField i)) [owner] [.ofField t]
  | putField {i : ConstantIndex} {t : FieldType} {value owner : FlowType}
      (type : c.fieldType i = .ok t) (accepts : t.Accepts value)
      (reference : owner.isReference = true) :
    Takes c offset locals (.straight (.putField i)) [value, owner] []
  | invokeStatic {i : ConstantIndex} {name : String} {d : MethodDescriptor}
      {arguments : List FlowType} (method : c.method i = .ok (name, d))
      (accepts : List.Forall₂ FieldType.Accepts d.parameters.reverse arguments) :
    Takes c offset locals (.straight (.invoke .static i)) arguments d.left
  | invoke {kind : InvokeKind} {i : ConstantIndex} {name : String} {d : MethodDescriptor}
      {arguments : List FlowType} {receiver : FlowType} (onObject : kind ≠ .static)
      (plain : ¬ (kind = .special ∧ name = "<init>")) (method : c.method i = .ok (name, d))
      (accepts : List.Forall₂ FieldType.Accepts d.parameters.reverse arguments)
      (reference : receiver.isReference = true) :
    Takes c offset locals (.straight (.invoke kind i)) (arguments ++ [receiver]) d.left
  | invokeDynamic {i : ConstantIndex} {d : MethodDescriptor} {arguments : List FlowType}
      (site : c.callSite i = .ok d)
      (accepts : List.Forall₂ FieldType.Accepts d.parameters.reverse arguments) :
    Takes c offset locals (.straight (.invokeDynamic i)) arguments d.left
  | new {i : ConstantIndex} {r : RefType} (type : c.classType i = .ok r)
      (plain : r.isArray = false) :
    Takes c offset locals (.straight (.new i)) [] [.uninitialized ⟨.ofNat offset, r⟩]
  | newReferenceArray {i : ConstantIndex} {r : RefType} (type : c.classType i = .ok r) :
    Takes c offset locals (.straight (.newReferenceArray i)) [.int] [.object (.arrayOf (.ref r))]
  | newMultiArray {i : ConstantIndex} {dimensions : UInt8} {r : RefType}
      (type : c.classType i = .ok r) (some : dimensions ≠ 0) (array : r.isArray = true) :
    Takes c offset locals (.straight (.newMultiArray i dimensions))
      (List.replicate dimensions.toNat .int) [.object r]
  | arrayLength {array : FlowType} {element : Option FieldType}
      (elements : array.HasElements (fun _ => true) element) :
    Takes c offset locals (.straight .arrayLength) [array] [.int]
  | checkCast {i : ConstantIndex} {r : RefType} {t : FlowType} (type : c.classType i = .ok r)
      (reference : t.isReference = true) :
    Takes c offset locals (.straight (.checkCast i)) [t] [.object r]
  | instanceOf {i : ConstantIndex} {r : RefType} {t : FlowType} (type : c.classType i = .ok r)
      (reference : t.isReference = true) :
    Takes c offset locals (.straight (.instanceOf i)) [t] [.int]
  | monitorEnter {t : FlowType} (reference : t.isReference = true) :
    Takes c offset locals (.straight .monitorEnter) [t] []
  | monitorExit {t : FlowType} (reference : t.isReference = true) :
    Takes c offset locals (.straight .monitorExit) [t] []
  | ifInt {k : Comparison} {target : Nat} : Takes c offset locals (.branch (.ifInt k target)) [.int] []
  | ifInts {k : Comparison} {target : Nat} :
    Takes c offset locals (.branch (.ifInts k target)) [.int, .int] []
  | ifReferences {k : Equality} {target : Nat} {t u : FlowType} (first : t.isReference = true)
      (second : u.isReference = true) :
    Takes c offset locals (.branch (.ifReferences k target)) [t, u] []
  | ifNull {k : Equality} {target : Nat} {t : FlowType} (reference : t.isReference = true) :
    Takes c offset locals (.branch (.ifNull k target)) [t] []
  | goto {target : Nat} : Takes c offset locals (.branch (.goto target)) [] []
  | tableSwitch {target : Nat} {low : Int32} {targets : List Nat} :
    Takes c offset locals (.branch (.tableSwitch target low targets)) [.int] []
  | lookupSwitch {target : Nat} {targets : List (Int32 × Nat)} :
    Takes c offset locals (.branch (.lookupSwitch target targets)) [.int] []
  | returnNumeric {n : Numeric} (result : c.result.map .ofField = some n.type) :
    Takes c offset locals (.branch (.returnValue (.numeric n))) [n.type] []
  | returnReference {t : FlowType} {r : RefType}
      (result : c.result.map .ofField = some (.object r : FlowType))
      (reference : t.isReference = true) :
    Takes c offset locals (.branch (.returnValue .reference)) [t] []
  | returnVoid (void : c.result = none) : Takes c offset locals (.branch .returnVoid) [] []

namespace Instruction.Takes

variable {c : MethodContext} {offset : Nat} {locals taken left : List FlowType}

theorem eq_of_effect {s : Straight} {taken' left' : List FlowType} (effect : s.effect? = some (taken', left'))
    (takes : (Instruction.straight s).Takes c offset locals taken left) : taken = taken' ∧ left = left' := by
  cases takes with
  | effect same =>
    cases same.symm.trans effect
    exact ⟨rfl, rfl⟩
  | _ => cases effect

theorem not_store {kind : ValueKind} {slot : UInt16} :
    ¬ (Instruction.straight (.store kind slot)).Takes c offset locals taken left := by
  intro takes
  cases takes with
  | effect effect => cases effect

theorem not_throw : ¬ (Instruction.branch .throw).Takes c offset locals taken left := nofun

theorem not_constructor {i : ConstantIndex} {d : MethodDescriptor} (method : c.method i = .ok ("<init>", d)) :
    ¬ (Instruction.straight (.invoke .special i)).Takes c offset locals taken left := by
  intro takes
  cases takes with
  | effect effect => cases effect
  | invoke _ plain method' =>
    cases method.symm.trans method'
    exact plain ⟨rfl, rfl⟩

end Instruction.Takes

namespace Frame

inductive Steps (c : MethodContext) (offset : Nat) : Instruction → Frame → Frame → Prop
  | takes {i : Instruction} {locals taken left : List FlowType} (rest : List FlowType)
      (takes : i.Takes c offset locals taken left) :
    Steps c offset i ⟨locals, taken ++ rest⟩ ⟨locals, left ++ rest⟩
  | stores {kind : ValueKind} {slot : UInt16} {t : FlowType} {locals written : List FlowType}
      (rest : List FlowType) (moves : kind.Moves t) (ok : write t slot locals = .ok written) :
    Steps c offset (.straight (.store kind slot)) ⟨locals, t :: rest⟩ ⟨written, rest⟩
  | constructs {i : ConstantIndex} {d : MethodDescriptor} {arguments : List FlowType}
      {receiver object : FlowType} (locals rest : List FlowType)
      (method : c.method i = .ok ("<init>", d)) (void : d.result = none)
      (accepts : List.Forall₂ FieldType.Accepts d.parameters.reverse arguments)
      (made : initialized? c receiver = some object) :
    Steps c offset (.straight (.invoke .special i)) ⟨locals, arguments ++ receiver :: rest⟩
      (replace receiver object ⟨locals, rest⟩)
  | throws {t : FlowType} (locals rest : List FlowType) (reference : t.isReference = true) :
    Steps c offset (.branch .throw) ⟨locals, t :: rest⟩ ⟨locals, [t]⟩

end Frame

namespace OperandStack

variable {stack rest : List FlowType}

theorem popExact_eq_ok {t : FlowType} : popExact t stack = .ok rest ↔ stack = t :: rest := by
  simp only [popExact, bind_eq_ok, pop_eq_ok]
  constructor
  · rintro ⟨⟨u, _⟩, rfl, ok⟩
    split at ok
    next same =>
      cases ok
      rw [← same]
    next => cases ok
  · rintro rfl
    exact ⟨(t, rest), rfl, if_pos rfl⟩

theorem popAll_eq_ok {ts : List FlowType} : popAll ts stack = .ok rest ↔ stack = ts ++ rest := by
  induction ts generalizing stack with
  | nil => simp [popAll]
  | cons t ts ih =>
    simp only [popAll, bind_eq_ok, popExact_eq_ok, ih, List.cons_append]
    constructor
    · rintro ⟨_, rfl, rfl⟩
      rfl
    · rintro rfl
      exact ⟨_, rfl, rfl⟩

theorem popReference_eq_ok {p : FlowType × List FlowType} :
    popReference stack = .ok p ↔ stack = p.1 :: p.2 ∧ p.1.isReference = true := by
  simp only [popReference, bind_eq_ok, pop_eq_ok]
  constructor
  · rintro ⟨q, rfl, ok⟩
    split at ok
    next reference =>
      cases ok
      exact ⟨rfl, reference⟩
    next => cases ok
  · rintro ⟨rfl, reference⟩
    exact ⟨p, rfl, if_pos reference⟩

theorem popReference_cons {t : FlowType} (reference : t.isReference = true) (rest : List FlowType) :
    popReference (t :: rest) = .ok (t, rest) :=
  popReference_eq_ok.2 ⟨rfl, reference⟩

theorem popField_eq_ok {t : FieldType} :
    popField t stack = .ok rest ↔ ∃ value, t.Accepts value ∧ stack = value :: rest := by
  cases t with
  | base b => simp [popField, popExact_eq_ok, FieldType.Accepts]
  | ref r =>
    simp only [popField, map_eq_ok, popReference_eq_ok, FieldType.Accepts]
    constructor
    · rintro ⟨p, ⟨rfl, reference⟩, rfl⟩
      exact ⟨p.1, reference, rfl⟩
    · rintro ⟨value, reference, rfl⟩
      exact ⟨(value, rest), ⟨rfl, reference⟩, rfl⟩

theorem popArguments_eq_ok {parameters : List FieldType} :
    popArguments parameters stack = .ok rest ↔ ∃ arguments,
      List.Forall₂ FieldType.Accepts parameters.reverse arguments ∧ stack = arguments ++ rest := by
  unfold popArguments
  induction parameters.reverse generalizing stack with
  | nil =>
    constructor
    · rintro ⟨⟩
      exact ⟨[], .nil, rfl⟩
    · rintro ⟨_, ⟨⟩, rfl⟩
      rfl
  | cons t ts ih =>
    simp only [List.foldlM_cons, bind_eq_ok, popField_eq_ok, ih]
    constructor
    · rintro ⟨_, ⟨value, first, rfl⟩, arguments, others, rfl⟩
      exact ⟨value :: arguments, .cons first others, rfl⟩
    · rintro ⟨_, accepts, rfl⟩
      cases accepts with
      | cons first others => exact ⟨_, ⟨_, first, rfl⟩, _, others, rfl⟩

theorem popArray_eq_ok {holds : FieldType → Bool} {p : Option FieldType × List FlowType} :
    popArray holds stack = .ok p ↔
      ∃ array : FlowType, array.HasElements holds p.1 ∧ stack = array :: p.2 := by
  simp only [popArray, bind_eq_ok, pop_eq_ok]
  constructor
  · rintro ⟨⟨array, _⟩, rfl, ok⟩
    cases array with
    | null =>
      cases ok
      exact ⟨_, .null, rfl⟩
    | object r =>
      simp only at ok
      split at ok
      next component =>
        split at ok
        next held =>
          cases ok
          exact ⟨_, .array component held, rfl⟩
        next => cases ok
      next => cases ok
    | _ => cases ok
  · rintro ⟨array, elements, rfl⟩
    obtain ⟨element, rest⟩ := p
    refine ⟨(array, rest), rfl, ?_⟩
    cases elements with
    | null => rfl
    | array component held =>
      simp only [component]
      exact if_pos held

theorem popArray_cons {holds : FieldType → Bool} {array : FlowType} {element : Option FieldType}
    (elements : array.HasElements holds element) (rest : List FlowType) :
    popArray holds (array :: rest) = .ok (element, rest) :=
  popArray_eq_ok.2 ⟨array, elements, rfl⟩

end OperandStack

theorem LocalSlots.readExact_eq_ok {t : FlowType} {slot : UInt16} {locals : List FlowType} {u : Unit} :
    readExact t slot locals = .ok u ↔ read slot locals = .ok t := by
  simp only [readExact, bind_eq_ok]
  constructor
  · rintro ⟨t', there, ok⟩
    split at ok
    next same => rwa [← same]
    next => cases ok
  · exact fun there => ⟨t, there, if_pos rfl⟩

namespace Frame

variable {c : MethodContext} {offset : Nat} {f g : Frame}

theorem straight_of_effect {s : Straight} {taken left : List FlowType}
    (effect : s.effect? = some (taken, left)) (f : Frame) :
    straight c offset s f = do return { f with stack := left ++ (← popAll taken f.stack) } := by
  cases s <;> cases effect <;> rfl

theorem invoke_steps {kind : InvokeKind} {i : ConstantIndex} (ok : invoke c kind i f = .ok g) :
    Steps c offset (.straight (.invoke kind i)) f g := by
  obtain ⟨locals, stack⟩ := f
  unfold invoke at ok
  obtain ⟨⟨name, d⟩, method, ok⟩ := bind_eq_ok.1 ok
  obtain ⟨below, popped, ok⟩ := bind_eq_ok.1 ok
  obtain ⟨arguments, accepts, rfl⟩ := popArguments_eq_ok.1 popped
  by_cases constructs : kind = .special ∧ name = "<init>"
  · rw [if_pos constructs] at ok
    split at ok
    next => cases ok
    next void =>
      obtain ⟨⟨receiver, rest⟩, first, replaced⟩ := bind_eq_ok.1 ok
      obtain rfl := pop_eq_ok.1 first
      simp only at replaced
      split at replaced
      next object made =>
        cases replaced
        obtain ⟨rfl, rfl⟩ := constructs
        exact .constructs locals rest method (by simpa using void) accepts made
      next => cases replaced
  · rw [if_neg constructs] at ok
    by_cases static : kind = .static
    · rw [if_pos static] at ok
      cases ok
      subst static
      exact .takes below (.invokeStatic method accepts)
    · rw [if_neg static] at ok
      obtain ⟨_, receives, ⟨⟩⟩ := bind_eq_ok.1 ok
      obtain ⟨⟨receiver, rest⟩, first, rfl⟩ := map_eq_ok.1 receives
      obtain ⟨rfl, reference⟩ := popReference_eq_ok.1 first
      rw [List.append_cons]
      exact .takes rest (.invoke static constructs method accepts reference)

theorem straight_steps {s : Straight} (ok : straight c offset s f = .ok g) :
    Steps c offset (.straight s) f g := by
  obtain ⟨locals, stack⟩ := f
  cases effect : s.effect? with
  | some types =>
    rw [straight_of_effect effect] at ok
    obtain ⟨rest, popped, ⟨⟩⟩ := bind_eq_ok.1 ok
    obtain rfl := popAll_eq_ok.1 popped
    exact .takes rest (.effect effect)
  | none =>
    cases s with
    | loadConstant i =>
      obtain ⟨t, type, ok⟩ := bind_eq_ok.1 ok
      split at ok
      next narrow =>
        cases ok
        exact .takes stack (.loadConstant type narrow)
      next => cases ok
    | loadWideConstant i =>
      obtain ⟨t, type, ok⟩ := bind_eq_ok.1 ok
      split at ok
      next wide =>
        cases ok
        exact .takes stack (.loadWideConstant type wide)
      next => cases ok
    | load kind slot =>
      cases kind with
      | numeric n =>
        obtain ⟨_, there, ⟨⟩⟩ := bind_eq_ok.1 ok
        have moves : ValueKind.Moves (.numeric n) n.type := rfl
        exact .takes stack (.load (readExact_eq_ok.1 there) moves)
      | reference =>
        obtain ⟨t, there, ok⟩ := bind_eq_ok.1 ok
        split at ok
        next reference =>
          cases ok
          have moves : ValueKind.Moves .reference t := reference
          exact .takes stack (.load there moves)
        next => cases ok
    | store kind slot =>
      cases kind with
      | numeric n =>
        obtain ⟨rest, popped, ok⟩ := bind_eq_ok.1 ok
        obtain ⟨written, stored, ⟨⟩⟩ := bind_eq_ok.1 ok
        obtain rfl := popExact_eq_ok.1 popped
        exact .stores rest rfl stored
      | reference =>
        obtain ⟨⟨t, rest⟩, popped, ok⟩ := bind_eq_ok.1 ok
        obtain ⟨written, stored, ⟨⟩⟩ := bind_eq_ok.1 ok
        obtain ⟨rfl, reference⟩ := popReference_eq_ok.1 popped
        exact .stores rest reference stored
    | arrayLoad kind =>
      obtain ⟨_, index, ok⟩ := bind_eq_ok.1 ok
      obtain ⟨⟨element, rest⟩, popped, ok⟩ := bind_eq_ok.1 ok
      obtain rfl := popExact_eq_ok.1 index
      obtain ⟨array, elements, rfl⟩ := popArray_eq_ok.1 popped
      have loads : g = ⟨locals, kind.loaded element :: rest⟩ := by
        cases kind <;> cases element <;> cases ok <;> rfl
      subst loads
      exact .takes rest (.arrayLoad elements)
    | arrayStore kind =>
      -- the index is below the value, and an array of references takes any reference
      have indexed {value array : FlowType} {element : Option FieldType} {rest : List FlowType}
          (stores : kind.Stores value) (elements : array.HasElements kind.holds element)
          (same : stack = value :: .int :: array :: rest) :
          Steps c offset (.straight (.arrayStore kind)) ⟨locals, stack⟩ ⟨locals, rest⟩ := by
        rw [same]
        exact .takes rest (.arrayStore stores elements)
      cases kind with
      | reference =>
        obtain ⟨⟨value, _⟩, first, ok⟩ := bind_eq_ok.1 ok
        obtain ⟨_, index, ok⟩ := bind_eq_ok.1 ok
        obtain ⟨⟨element, rest⟩, popped, ⟨⟩⟩ := bind_eq_ok.1 ok
        obtain ⟨rfl, reference⟩ := popReference_eq_ok.1 first
        obtain rfl := popExact_eq_ok.1 index
        obtain ⟨array, elements, rfl⟩ := popArray_eq_ok.1 popped
        exact indexed reference elements rfl
      | _ =>
        obtain ⟨_, first, ok⟩ := bind_eq_ok.1 ok
        obtain ⟨⟨element, rest⟩, popped, ⟨⟩⟩ := bind_eq_ok.1 ok
        obtain rfl := popAll_eq_ok.1 first
        obtain ⟨array, elements, rfl⟩ := popArray_eq_ok.1 popped
        exact indexed rfl elements rfl
    | stack op =>
      obtain ⟨_, applied, ⟨⟩⟩ := bind_eq_ok.1 ok
      obtain ⟨top, below, rest, rfl, taken, under, rfl⟩ := StackOp.apply_eq_ok.1 applied
      exact .takes rest (.stack taken under)
    | increment slot amount =>
      obtain ⟨_, there, ⟨⟩⟩ := bind_eq_ok.1 ok
      exact .takes stack (.increment (readExact_eq_ok.1 there))
    | getStatic i =>
      obtain ⟨t, type, ⟨⟩⟩ := bind_eq_ok.1 ok
      exact .takes stack (.getStatic type)
    | putStatic i =>
      obtain ⟨t, type, ok⟩ := bind_eq_ok.1 ok
      obtain ⟨rest, popped, ⟨⟩⟩ := bind_eq_ok.1 ok
      obtain ⟨value, accepts, rfl⟩ := popField_eq_ok.1 popped
      exact .takes rest (.putStatic type accepts)
    | getField i =>
      obtain ⟨t, type, ok⟩ := bind_eq_ok.1 ok
      obtain ⟨⟨owner, rest⟩, popped, ⟨⟩⟩ := bind_eq_ok.1 ok
      obtain ⟨rfl, reference⟩ := popReference_eq_ok.1 popped
      exact .takes rest (.getField type reference)
    | putField i =>
      obtain ⟨t, type, ok⟩ := bind_eq_ok.1 ok
      obtain ⟨_, popped, ok⟩ := bind_eq_ok.1 ok
      obtain ⟨⟨owner, rest⟩, popped', ⟨⟩⟩ := bind_eq_ok.1 ok
      obtain ⟨value, accepts, rfl⟩ := popField_eq_ok.1 popped
      obtain ⟨rfl, reference⟩ := popReference_eq_ok.1 popped'
      exact .takes rest (.putField type accepts reference)
    | invoke kind i => exact invoke_steps ok
    | invokeDynamic i =>
      obtain ⟨d, site, ok⟩ := bind_eq_ok.1 ok
      obtain ⟨rest, popped, ⟨⟩⟩ := bind_eq_ok.1 ok
      obtain ⟨arguments, accepts, rfl⟩ := popArguments_eq_ok.1 popped
      exact .takes rest (.invokeDynamic site accepts)
    | new i =>
      obtain ⟨r, type, ok⟩ := bind_eq_ok.1 ok
      split at ok
      next => cases ok
      next plain =>
        cases ok
        exact .takes stack (.new type (by simpa using plain))
    | newReferenceArray i =>
      obtain ⟨r, type, ok⟩ := bind_eq_ok.1 ok
      obtain ⟨rest, popped, ⟨⟩⟩ := bind_eq_ok.1 ok
      obtain rfl := popExact_eq_ok.1 popped
      exact .takes rest (.newReferenceArray type)
    | newMultiArray i dimensions =>
      obtain ⟨r, type, ok⟩ := bind_eq_ok.1 ok
      split at ok
      next => cases ok
      next fits =>
        obtain ⟨some, array⟩ := not_or.1 fits
        obtain ⟨rest, popped, ⟨⟩⟩ := bind_eq_ok.1 ok
        obtain rfl := popAll_eq_ok.1 popped
        exact .takes rest (.newMultiArray type some (by simpa using array))
    | arrayLength =>
      obtain ⟨⟨element, rest⟩, popped, ⟨⟩⟩ := bind_eq_ok.1 ok
      obtain ⟨array, elements, rfl⟩ := popArray_eq_ok.1 popped
      exact .takes rest (.arrayLength elements)
    | checkCast i =>
      obtain ⟨r, type, ok⟩ := bind_eq_ok.1 ok
      obtain ⟨⟨t, rest⟩, popped, ⟨⟩⟩ := bind_eq_ok.1 ok
      obtain ⟨rfl, reference⟩ := popReference_eq_ok.1 popped
      exact .takes rest (.checkCast type reference)
    | instanceOf i =>
      obtain ⟨r, type, ok⟩ := bind_eq_ok.1 ok
      obtain ⟨⟨t, rest⟩, popped, ⟨⟩⟩ := bind_eq_ok.1 ok
      obtain ⟨rfl, reference⟩ := popReference_eq_ok.1 popped
      exact .takes rest (.instanceOf type reference)
    | monitorEnter =>
      obtain ⟨⟨t, rest⟩, popped, ⟨⟩⟩ := bind_eq_ok.1 ok
      obtain ⟨rfl, reference⟩ := popReference_eq_ok.1 popped
      exact .takes rest (.monitorEnter reference)
    | monitorExit =>
      obtain ⟨⟨t, rest⟩, popped, ⟨⟩⟩ := bind_eq_ok.1 ok
      obtain ⟨rfl, reference⟩ := popReference_eq_ok.1 popped
      exact .takes rest (.monitorExit reference)
    | _ => cases effect

theorem branch_steps {b : Branch} (ok : branch c b f = .ok g) : Steps c offset (.branch b) f g := by
  obtain ⟨locals, stack⟩ := f
  cases b with
  | ifInt k target =>
    obtain ⟨rest, popped, ⟨⟩⟩ := bind_eq_ok.1 ok
    obtain rfl := popExact_eq_ok.1 popped
    exact .takes rest .ifInt
  | tableSwitch target low targets =>
    obtain ⟨rest, popped, ⟨⟩⟩ := bind_eq_ok.1 ok
    obtain rfl := popExact_eq_ok.1 popped
    exact .takes rest .tableSwitch
  | lookupSwitch target targets =>
    obtain ⟨rest, popped, ⟨⟩⟩ := bind_eq_ok.1 ok
    obtain rfl := popExact_eq_ok.1 popped
    exact .takes rest .lookupSwitch
  | ifInts k target =>
    obtain ⟨rest, popped, ⟨⟩⟩ := bind_eq_ok.1 ok
    obtain rfl := popAll_eq_ok.1 popped
    exact .takes rest .ifInts
  | ifReferences k target =>
    obtain ⟨⟨t, _⟩, popped, ok⟩ := bind_eq_ok.1 ok
    obtain ⟨⟨u, rest⟩, popped', ⟨⟩⟩ := bind_eq_ok.1 ok
    obtain ⟨rfl, first⟩ := popReference_eq_ok.1 popped
    obtain ⟨rfl, second⟩ := popReference_eq_ok.1 popped'
    exact .takes rest (.ifReferences first second)
  | ifNull k target =>
    obtain ⟨⟨t, rest⟩, popped, ⟨⟩⟩ := bind_eq_ok.1 ok
    obtain ⟨rfl, reference⟩ := popReference_eq_ok.1 popped
    exact .takes rest (.ifNull reference)
  | goto target =>
    cases ok
    exact .takes stack .goto
  | returnValue kind =>
    cases kind with
    | numeric n =>
      obtain ⟨rest, popped, ok⟩ := bind_eq_ok.1 ok
      obtain rfl := popExact_eq_ok.1 popped
      split at ok
      next result =>
        cases ok
        exact .takes rest (.returnNumeric result)
      next => cases ok
    | reference =>
      obtain ⟨⟨t, rest⟩, popped, ok⟩ := bind_eq_ok.1 ok
      obtain ⟨rfl, reference⟩ := popReference_eq_ok.1 popped
      simp only at ok
      split at ok
      next r result =>
        cases ok
        exact .takes rest (.returnReference result reference)
      next => cases ok
  | returnVoid =>
    unfold branch at ok
    simp only at ok
    split at ok
    next => cases ok
    next void =>
      cases ok
      exact .takes stack (.returnVoid (by simpa using void))
  | throw =>
    obtain ⟨⟨t, rest⟩, popped, ⟨⟩⟩ := bind_eq_ok.1 ok
    obtain ⟨rfl, reference⟩ := popReference_eq_ok.1 popped
    exact .throws locals rest reference

theorem step_of_takes {i : Instruction} {locals taken left : List FlowType}
    (takes : i.Takes c offset locals taken left) (rest : List FlowType) :
    step c offset i ⟨locals, taken ++ rest⟩ = .ok ⟨locals, left ++ rest⟩ := by
  cases takes with
  | effect effect =>
    change straight c offset _ _ = _
    rw [straight_of_effect effect]
    exact bind_eq_ok.2 ⟨rest, popAll_eq_ok.2 rfl, rfl⟩
  | loadConstant type narrow => exact bind_eq_ok.2 ⟨_, type, if_pos narrow⟩
  | loadWideConstant type wide => exact bind_eq_ok.2 ⟨_, type, if_pos wide⟩
  | @load kind slot t there moves =>
    cases kind with
    | numeric n =>
      obtain rfl : t = n.type := moves
      exact bind_eq_ok.2 ⟨(), readExact_eq_ok.2 there, rfl⟩
    | reference => exact bind_eq_ok.2 ⟨_, there, if_pos moves⟩
  | @arrayLoad kind array element elements =>
    refine bind_eq_ok.2 ⟨_, popExact_eq_ok.2 rfl, ?_⟩
    refine bind_eq_ok.2 ⟨_, popArray_cons elements rest, ?_⟩
    cases kind <;> cases element <;> rfl
  | @arrayStore kind value array element stores elements =>
    have popped := popArray_cons elements rest
    cases kind with
    | reference =>
      refine bind_eq_ok.2 ⟨_, popReference_cons stores _, ?_⟩
      exact bind_eq_ok.2 ⟨_, popExact_eq_ok.2 rfl, bind_eq_ok.2 ⟨_, popped, rfl⟩⟩
    | _ =>
      obtain rfl := stores
      exact bind_eq_ok.2 ⟨_, popAll_eq_ok.2 rfl, bind_eq_ok.2 ⟨_, popped, rfl⟩⟩
  | stack taken under =>
    exact bind_eq_ok.2 ⟨_, StackOp.apply_eq_ok.2 ⟨_, _, rest, rfl, taken, under, rfl⟩, rfl⟩
  | increment there => exact bind_eq_ok.2 ⟨(), readExact_eq_ok.2 there, rfl⟩
  | getStatic type => exact bind_eq_ok.2 ⟨_, type, rfl⟩
  | putStatic type accepts =>
    exact bind_eq_ok.2 ⟨_, type, bind_eq_ok.2 ⟨_, popField_eq_ok.2 ⟨_, accepts, rfl⟩, rfl⟩⟩
  | getField type reference =>
    exact bind_eq_ok.2 ⟨_, type, bind_eq_ok.2 ⟨_, popReference_cons reference _, rfl⟩⟩
  | putField type accepts reference =>
    refine bind_eq_ok.2 ⟨_, type, bind_eq_ok.2 ⟨_, popField_eq_ok.2 ⟨_, accepts, rfl⟩, ?_⟩⟩
    exact bind_eq_ok.2 ⟨_, popReference_cons reference _, rfl⟩
  | invokeStatic method accepts =>
    exact bind_eq_ok.2 ⟨_, method, bind_eq_ok.2 ⟨_, popArguments_eq_ok.2 ⟨_, accepts, rfl⟩, rfl⟩⟩
  | @invoke kind i name d arguments receiver onObject plain method accepts reference =>
    rw [← List.append_cons]
    refine bind_eq_ok.2 ⟨_, method, bind_eq_ok.2 ⟨_, popArguments_eq_ok.2 ⟨_, accepts, rfl⟩, ?_⟩⟩
    rw [if_neg plain, if_neg onObject]
    exact bind_eq_ok.2 ⟨_, map_eq_ok.2 ⟨_, popReference_cons reference _, rfl⟩, rfl⟩
  | invokeDynamic site accepts =>
    exact bind_eq_ok.2 ⟨_, site, bind_eq_ok.2 ⟨_, popArguments_eq_ok.2 ⟨_, accepts, rfl⟩, rfl⟩⟩
  | new type plain => exact bind_eq_ok.2 ⟨_, type, if_neg (by simp [plain])⟩
  | newReferenceArray type =>
    exact bind_eq_ok.2 ⟨_, type, bind_eq_ok.2 ⟨_, popExact_eq_ok.2 rfl, rfl⟩⟩
  | newMultiArray type some array =>
    refine bind_eq_ok.2 ⟨_, type, ?_⟩
    rw [if_neg (by simp [some, array])]
    exact bind_eq_ok.2 ⟨_, popAll_eq_ok.2 rfl, rfl⟩
  | arrayLength elements => exact bind_eq_ok.2 ⟨_, popArray_cons elements rest, rfl⟩
  | checkCast type reference =>
    exact bind_eq_ok.2 ⟨_, type, bind_eq_ok.2 ⟨_, popReference_cons reference _, rfl⟩⟩
  | instanceOf type reference =>
    exact bind_eq_ok.2 ⟨_, type, bind_eq_ok.2 ⟨_, popReference_cons reference _, rfl⟩⟩
  | monitorEnter reference | monitorExit reference =>
    exact bind_eq_ok.2 ⟨_, popReference_cons reference _, rfl⟩
  | ifInt | tableSwitch | lookupSwitch => exact bind_eq_ok.2 ⟨_, popExact_eq_ok.2 rfl, rfl⟩
  | ifInts => exact bind_eq_ok.2 ⟨_, popAll_eq_ok.2 rfl, rfl⟩
  | ifReferences first second =>
    refine bind_eq_ok.2 ⟨_, popReference_cons first _, ?_⟩
    exact bind_eq_ok.2 ⟨_, popReference_cons second _, rfl⟩
  | ifNull reference => exact bind_eq_ok.2 ⟨_, popReference_cons reference _, rfl⟩
  | goto => rfl
  | returnNumeric result => exact bind_eq_ok.2 ⟨_, popExact_eq_ok.2 rfl, if_pos result⟩
  | returnReference result reference =>
    refine bind_eq_ok.2 ⟨_, popReference_cons reference _, ?_⟩
    simp only [result]
    rfl
  | returnVoid void => exact if_neg (by simp [void])

theorem step_of_steps {i : Instruction} (steps : Steps c offset i f g) : step c offset i f = .ok g := by
  cases steps with
  | takes rest takes => exact step_of_takes takes rest
  | @stores kind slot t _ _ rest moves ok =>
    cases kind with
    | numeric n =>
      obtain rfl : t = n.type := moves
      exact bind_eq_ok.2 ⟨_, popExact_eq_ok.2 rfl, bind_eq_ok.2 ⟨_, ok, rfl⟩⟩
    | reference =>
      exact bind_eq_ok.2 ⟨_, popReference_cons moves _, bind_eq_ok.2 ⟨_, ok, rfl⟩⟩
  | constructs locals rest method void accepts made =>
    refine bind_eq_ok.2 ⟨_, method, bind_eq_ok.2 ⟨_, popArguments_eq_ok.2 ⟨_, accepts, rfl⟩, ?_⟩⟩
    rw [if_pos ⟨rfl, rfl⟩, void]
    refine bind_eq_ok.2 ⟨(_, rest), rfl, ?_⟩
    simp only [made]
    rfl
  | throws locals rest reference =>
    exact bind_eq_ok.2 ⟨_, popReference_cons reference _, rfl⟩

/-- An instruction passes exactly if a rule applies. -/
theorem step_eq_ok {i : Instruction} : step c offset i f = .ok g ↔ Steps c offset i f g := by
  refine ⟨fun ok => ?_, step_of_steps⟩
  cases i with
  | straight s => exact straight_steps ok
  | branch b => exact branch_steps ok

end Frame

end StackMaps
