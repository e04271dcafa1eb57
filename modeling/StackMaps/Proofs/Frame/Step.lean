import StackMaps.Proofs.Frame.Simulation

/-! Each instruction takes related frames to related frames, and passes on the first whenever it
passes on the second: the rule that applies to the second applies to the first. -/

namespace StackMaps

variable {L S : FlowType → FlowType → Prop} {c' c : MethodContext}

open OperandStack

namespace LocalSlots

variable {locals locals' : List FlowType}

theorem getElem?_follows (related : List.Forall₂ L locals' locals) (i : Nat) {b : FlowType}
    (there : locals[i]? = some b) : ∃ a, locals'[i]? = some a ∧ L a b := by
  induction related generalizing i with
  | nil => simp at there
  | cons first _ ih =>
    cases i with
    | zero =>
      cases there
      exact ⟨_, rfl, first⟩
    | succ i => exact ih i there

theorem set_related (related : List.Forall₂ L locals' locals) (i : Nat) {a b : FlowType}
    (new : L a b) : List.Forall₂ L (locals'.set i a) (locals.set i b) := by
  induction related generalizing i with
  | nil => exact .nil
  | cons first rest ih =>
    cases i with
    | zero => exact .cons new rest
    | succ i => exact .cons first (ih i)

theorem read_follows (related : List.Forall₂ L locals' locals) (slot : UInt16) :
    Follows L (read slot locals') (read slot locals) := by
  intro b ok
  unfold read at ok
  split at ok
  next t there =>
    cases ok
    obtain ⟨a, there', rel⟩ := getElem?_follows related _ there
    exact ⟨a, by simp only [read, there'], rel⟩
  next => cases ok

theorem spoilWide_related (sim : Simulates L S c' c) (related : List.Forall₂ L locals' locals)
    (i : Nat) : List.Forall₂ L (spoilWide i locals') (spoilWide i locals) := by
  induction related generalizing i with
  | nil => exact .nil
  | @cons a b as bs first rest ih =>
    cases i with
    | zero =>
      have spoil : ∀ t ts, spoilWide 0 (t :: ts) = (if t = .long ∨ t = .double then .top else t) :: ts := by
        intro t ts
        cases t <;> rfl
      rw [spoil, spoil]
      refine .cons ?_ rest
      by_cases top : b = .top
      · subst top
        obtain rfl | forget := sim.forget a first
        · exact first
        · simpa using forget _
      · have stack := sim.toStack a b first top
        obtain rfl | ⟨rfl | ⟨_, rfl⟩, _, rfl⟩ | ⟨⟨_, rfl⟩, _, rfl⟩ := sim.shape a b stack
        · split
          · exact sim.top
          · exact first
        · exact first
        · exact first
        · exact first
    | succ i =>
      have spoil : ∀ t ts, spoilWide (i + 1) (t :: ts) = t :: spoilWide i ts := by
        intro t ts
        unfold spoilWide
        simp only [List.getElem?_cons_succ]
        split <;> rfl
      rw [spoil, spoil]
      exact .cons first (ih i)

theorem write_follows (sim : Simulates L S c' c) (related : List.Forall₂ L locals' locals)
    {a b : FlowType} (new : S a b) (slot : UInt16) :
    Follows (List.Forall₂ L) (write a slot locals') (write b slot locals) := by
  intro out ok
  have spoilt : List.Forall₂ L
      (if slot.toNat = 0 then locals' else spoilWide (slot.toNat - 1) locals')
      (if slot.toNat = 0 then locals else spoilWide (slot.toNat - 1) locals) := by
    split
    · exact related
    · exact spoilWide_related sim related _
  simp only [write] at ok ⊢
  rw [sim.width_eq new, related.length_eq]
  split at ok
  next => cases ok
  next fits =>
    rw [if_neg fits]
    cases ok
    refine ⟨_, rfl, ?_⟩
    have written := set_related spoilt slot.toNat (sim.toLocal a b new)
    split
    · exact set_related written _ sim.top
    · exact written

end LocalSlots

open LocalSlots

namespace Frame

variable {f g : Frame}

theorem replace_related (sim : Simulates L S c' c) (related : f.Related L S g)
    {old old' new new' : FlowType} (same : ∀ a b, S a b → (a = old' ↔ b = old))
    (usable : old ≠ .top) (usable' : old' ≠ .top) (object : S new' new) :
    Frame.Related L S (f.replace old' new') (g.replace old new) := by
  have onStack : ∀ a b, S a b → S (if a = old' then new' else a) (if b = old then new else b) := by
    intro a b rel
    by_cases here : b = old
    · rwa [if_pos here, if_pos ((same a b rel).2 here)]
    · rwa [if_neg here, if_neg (mt (same a b rel).1 here)]
  have inLocals : ∀ a b, L a b → L (if a = old' then new' else a) (if b = old then new else b) := by
    intro a b rel
    by_cases top : b = .top
    · subst top
      rw [if_neg (Ne.symm usable)]
      obtain rfl | forget := sim.forget a rel
      · rwa [if_neg (Ne.symm usable')]
      · exact forget _
    · exact sim.toLocal _ _ (onStack a b (sim.toStack a b rel top))
  refine ⟨?_, ?_⟩
  · exact List.forall₂_map_left_iff.2 (List.forall₂_map_right_iff.2 (related.locals.imp inLocals))
  · exact List.forall₂_map_left_iff.2 (List.forall₂_map_right_iff.2 (related.stack.imp onStack))

theorem this_alike (sim : Simulates L S c' c) (a b : FlowType) (rel : S a b) :
    a = .uninitializedThis ↔ b = .uninitializedThis := by
  obtain rfl | ⟨rfl | ⟨_, rfl⟩, _, rfl⟩ | ⟨⟨_, rfl⟩, _, rfl⟩ := sim.shape a b rel <;> simp

theorem new_alike (sim : Simulates L S c' c) {made' made : NewObject}
    (new : S (.uninitialized made') (.uninitialized made)) (a b : FlowType) (rel : S a b) :
    a = .uninitialized made' ↔ b = .uninitialized made := by
  cases b with
  | uninitialized other =>
    obtain rfl | ⟨_, _, none⟩ | ⟨⟨other', rfl⟩, _⟩ := sim.shape a _ rel
    · have same := sim.alike _ _ _ _ rel new
      simpa using same
    · cases none
    · have same := sim.alike _ _ _ _ rel new
      simpa using same
  | _ =>
    obtain rfl | ⟨rfl | ⟨_, rfl⟩, _, same⟩ | ⟨_, _, none⟩ := sim.shape a _ rel <;> simp_all

theorem initialized_related (sim : Simulates L S c' c) {a b object : FlowType} (related : S a b)
    (made : initialized? c b = some object) : ∃ object', initialized? c' a = some object' ∧
      S object' object ∧ (∀ x y, S x y → (x = a ↔ y = b)) ∧ b ≠ .top ∧ a ≠ .top := by
  cases b with
  | uninitializedThis =>
    cases (this_alike sim _ _ related).2 rfl
    cases made
    refine ⟨_, rfl, ?_, this_alike sim, nofun, nofun⟩
    rw [sim.thisType]
    exact sim.this
  | uninitialized new =>
    obtain ⟨new', rfl⟩ : ∃ new', a = .uninitialized new' := by
      obtain rfl | ⟨_, _, none⟩ | ⟨other, _⟩ := sim.shape a _ related
      · exact ⟨new, rfl⟩
      · cases none
      · exact other
    cases made
    exact ⟨_, rfl, sim.initialized new' new related, new_alike sim related, nofun, nofun⟩
  | _ => cases made

theorem isBasic_effect {s : Straight} {taken left : List FlowType}
    (effect : s.effect? = some (taken, left)) :
    (∀ t ∈ taken, t.IsBasic) ∧
      ∀ t ∈ left, t.IsBasic ∨ ∃ e, t = .object (.arrayOf (.base e)) := by
  have numeric : ∀ n : Numeric, FlowType.IsBasic n.type := isBasic_numeric
  have integral : ∀ n : Integral, FlowType.IsBasic n.type := fun n => by cases n <;> trivial
  have floating : ∀ n : Floating, FlowType.IsBasic n.type := fun n => by cases n <;> trivial
  have int : FlowType.IsBasic .int := trivial
  have long : FlowType.IsBasic .long := trivial
  have null : FlowType.IsBasic .null := trivial
  cases s <;> cases effect <;> simp [numeric, integral, floating, int, long, null]
  exact .inr ⟨_, rfl⟩

theorem left_related {d : MethodDescriptor} (types : ∀ t, d.result = some t → S (.ofField t) (.ofField t)) :
    List.Forall₂ S d.left d.left := by
  refine List.forall₂_same.2 fun t there => ?_
  obtain ⟨r, result, rfl⟩ := Option.map_eq_some_iff.1 (Option.mem_toList.1 there)
  exact types r result

theorem exists_append_of_forall₂ {R : FlowType → FlowType → Prop} {ts top rest : List FlowType}
    (related : List.Forall₂ R ts (top ++ rest)) :
    ∃ top' rest', ts = top' ++ rest' ∧ List.Forall₂ R top' top ∧ List.Forall₂ R rest' rest :=
  ⟨_, _, (List.take_append_drop top.length ts).symm, List.forall₂_take_append _ _ _ related,
    List.forall₂_drop_append _ _ _ related⟩

theorem rearranged_related {R : FlowType → FlowType → Prop} (op : StackOp)
    {top top' below below' : List FlowType} (first : List.Forall₂ R top' top)
    (second : List.Forall₂ R below' below) :
    List.Forall₂ R (op.rearranged top' below') (op.rearranged top below) := by
  cases op with
  | pop | pop2 => exact second
  | swap => exact List.rel_append second first
  | _ => exact List.rel_append (List.rel_append first second) first

/-- Where a rule takes some entries, it takes related ones, and leaves related ones for them. -/
theorem takes_follows (sim : Simulates L S c' c) {offset' offset : Nat} {i : Instruction}
    (made : ∀ k r, i = .straight (.new k) → c.classType k = .ok r →
      S (.uninitialized ⟨.ofNat offset', r⟩) (.uninitialized ⟨.ofNat offset, r⟩))
    {locals' locals taken' taken left : List FlowType} (slots : List.Forall₂ L locals' locals)
    (entries : List.Forall₂ S taken' taken) (takes : i.Takes c offset locals taken left) :
    ∃ left', i.Takes c' offset' locals' taken' left' ∧ List.Forall₂ S left' left := by
  have int : S .int .int := sim.basic _ trivial
  have reference {a b : FlowType} (related : S a b) (reference : b.isReference = true) :
      a.isReference = true := (sim.isReference_eq related).trans reference
  cases takes with
  | effect effect =>
    obtain ⟨basic, basic'⟩ := isBasic_effect effect
    obtain rfl := sim.eq_of_all_basic basic entries
    refine ⟨_, .effect effect, List.forall₂_same.2 fun t there => ?_⟩
    obtain basic | ⟨e, rfl⟩ := basic' t there
    · exact sim.basic t basic
    · exact sim.array e
  | loadConstant type narrow =>
    cases entries
    obtain ⟨type', related⟩ := sim.constantType _ _ type
    exact ⟨_, .loadConstant type' narrow, .cons related .nil⟩
  | loadWideConstant type wide =>
    cases entries
    obtain ⟨type', related⟩ := sim.constantType _ _ type
    exact ⟨_, .loadWideConstant type' wide, .cons related .nil⟩
  | @load kind slot t there moves =>
    cases entries
    obtain ⟨t', there', related⟩ := read_follows slots slot t there
    have usable : t ≠ .top := by
      rintro rfl
      obtain (_ | _ | _ | _) | _ := kind <;> cases moves
    have related := sim.toStack t' t related usable
    exact ⟨_, .load there' (sim.moves related moves), .cons related .nil⟩
  | @arrayLoad kind _ _ elements =>
    obtain _ | ⟨index, _ | ⟨array, _ | _⟩⟩ := entries
    obtain rfl := sim.eq_of_basic index trivial
    obtain ⟨x, elements', alike⟩ := sim.elements array kind.holds_ref elements
    exact ⟨_, .arrayLoad elements', .cons (sim.loaded alike) .nil⟩
  | @arrayStore kind _ _ _ stores elements =>
    obtain _ | ⟨value, _ | ⟨index, _ | ⟨array, _ | _⟩⟩⟩ := entries
    obtain rfl := sim.eq_of_basic index trivial
    obtain ⟨x, elements', _⟩ := sim.elements array kind.holds_ref elements
    exact ⟨_, .arrayStore (sim.stores value stores) elements', .nil⟩
  | @stack op top below taken under =>
    obtain ⟨top', below', rfl, first, second⟩ := exists_append_of_forall₂ entries
    refine ⟨_, .stack ?_ ?_, rearranged_related op first second⟩
    · rw [sim.totalWidth_eq first, taken]
    · rw [sim.totalWidth_eq second, under]
  | @increment slot amount there =>
    cases entries
    obtain ⟨t', there', related⟩ := read_follows slots slot _ there
    obtain rfl := sim.eq_of_basic (sim.toStack t' _ related nofun) trivial
    exact ⟨_, .increment there', .nil⟩
  | getStatic type =>
    cases entries
    obtain ⟨type', related⟩ := sim.fieldType _ _ type
    exact ⟨_, .getStatic type', .cons related .nil⟩
  | putStatic type accepts =>
    obtain _ | ⟨value, _ | _⟩ := entries
    exact ⟨_, .putStatic (sim.fieldType _ _ type).1 (sim.accepts value accepts), .nil⟩
  | getField type owner =>
    obtain _ | ⟨first, _ | _⟩ := entries
    obtain ⟨type', related⟩ := sim.fieldType _ _ type
    exact ⟨_, .getField type' (reference first owner), .cons related .nil⟩
  | putField type accepts owner =>
    obtain _ | ⟨value, _ | ⟨second, _ | _⟩⟩ := entries
    exact ⟨_, .putField (sim.fieldType _ _ type).1 (sim.accepts value accepts)
      (reference second owner), .nil⟩
  | invokeStatic method accepts =>
    obtain ⟨method', types⟩ := sim.method _ _ _ method
    exact ⟨_, .invokeStatic method' (sim.accepts_all entries accepts), left_related types⟩
  | invoke onObject plain method accepts receiver =>
    obtain ⟨method', types⟩ := sim.method _ _ _ method
    obtain ⟨arguments', _, rfl, arguments, _ | ⟨last, _ | _⟩⟩ := exists_append_of_forall₂ entries
    exact ⟨_, .invoke onObject plain method' (sim.accepts_all arguments accepts)
      (reference last receiver), left_related types⟩
  | invokeDynamic site accepts =>
    obtain ⟨site', types⟩ := sim.callSite _ _ site
    exact ⟨_, .invokeDynamic site' (sim.accepts_all entries accepts), left_related types⟩
  | new type plain =>
    cases entries
    exact ⟨_, .new (sim.classType _ _ type).1 plain, .cons (made _ _ rfl type) .nil⟩
  | newReferenceArray type =>
    obtain ⟨type', _, related⟩ := sim.classType _ _ type
    obtain _ | ⟨length, _ | _⟩ := entries
    obtain rfl := sim.eq_of_basic length trivial
    exact ⟨_, .newReferenceArray type', .cons related .nil⟩
  | @newMultiArray _ dimensions _ type some array =>
    obtain ⟨type', related, _⟩ := sim.classType _ _ type
    have basic : ∀ t ∈ List.replicate dimensions.toNat .int, FlowType.IsBasic t := by
      intro t there
      rw [List.eq_of_mem_replicate there]
      trivial
    obtain rfl := sim.eq_of_all_basic basic entries
    exact ⟨_, .newMultiArray type' some array, .cons related .nil⟩
  | arrayLength elements =>
    obtain _ | ⟨array, _ | _⟩ := entries
    obtain ⟨x, elements', _⟩ := sim.elements array (fun _ _ => rfl) elements
    exact ⟨_, .arrayLength elements', .cons int .nil⟩
  | checkCast type object =>
    obtain ⟨type', related, _⟩ := sim.classType _ _ type
    obtain _ | ⟨first, _ | _⟩ := entries
    exact ⟨_, .checkCast type' (reference first object), .cons related .nil⟩
  | instanceOf type object =>
    obtain _ | ⟨first, _ | _⟩ := entries
    exact ⟨_, .instanceOf (sim.classType _ _ type).1 (reference first object), .cons int .nil⟩
  | monitorEnter object =>
    obtain _ | ⟨first, _ | _⟩ := entries
    exact ⟨_, .monitorEnter (reference first object), .nil⟩
  | monitorExit object =>
    obtain _ | ⟨first, _ | _⟩ := entries
    exact ⟨_, .monitorExit (reference first object), .nil⟩
  | ifInt =>
    obtain rfl := sim.eq_of_all_basic (by simp [FlowType.IsBasic]) entries
    exact ⟨_, .ifInt, .nil⟩
  | ifInts =>
    obtain rfl := sim.eq_of_all_basic (by simp [FlowType.IsBasic]) entries
    exact ⟨_, .ifInts, .nil⟩
  | ifReferences t u =>
    obtain _ | ⟨first, _ | ⟨second, _ | _⟩⟩ := entries
    exact ⟨_, .ifReferences (reference first t) (reference second u), .nil⟩
  | ifNull object =>
    obtain _ | ⟨first, _ | _⟩ := entries
    exact ⟨_, .ifNull (reference first object), .nil⟩
  | goto =>
    cases entries
    exact ⟨_, .goto, .nil⟩
  | tableSwitch =>
    obtain rfl := sim.eq_of_all_basic (by simp [FlowType.IsBasic]) entries
    exact ⟨_, .tableSwitch, .nil⟩
  | lookupSwitch =>
    obtain rfl := sim.eq_of_all_basic (by simp [FlowType.IsBasic]) entries
    exact ⟨_, .lookupSwitch, .nil⟩
  | returnNumeric result =>
    obtain rfl := sim.eq_of_all_basic (by simp [isBasic_numeric]) entries
    exact ⟨_, .returnNumeric (by rw [sim.result, result]), .nil⟩
  | returnReference result object =>
    obtain _ | ⟨first, _ | _⟩ := entries
    exact ⟨_, .returnReference (by rw [sim.result, result]) (reference first object), .nil⟩
  | returnVoid void =>
    cases entries
    exact ⟨_, .returnVoid (sim.result.trans void), .nil⟩

/-- An instruction takes related frames to related frames. -/
theorem step_follows (sim : Simulates L S c' c) (offset' offset : Nat) (i : Instruction)
    (made : ∀ k r, i = .straight (.new k) → c.classType k = .ok r →
      S (.uninitialized ⟨.ofNat offset', r⟩) (.uninitialized ⟨.ofNat offset, r⟩))
    (related : f.Related L S g) :
    Follows (Frame.Related L S) (step c' offset' i f) (step c offset i g) := by
  intro out ok
  obtain ⟨locals', stack'⟩ := f
  obtain ⟨locals, stack⟩ := g
  have slots : List.Forall₂ L locals' locals := related.locals
  have entries : List.Forall₂ S stack' stack := related.stack
  cases step_eq_ok.1 ok with
  | takes rest takes =>
    obtain ⟨taken', rest', rfl, top, below⟩ := exists_append_of_forall₂ entries
    obtain ⟨left', takes', left⟩ := takes_follows sim made slots top takes
    exact ⟨_, step_of_takes takes' rest', slots, List.rel_append left below⟩
  | @stores _ slot _ _ _ rest moves written =>
    obtain _ | ⟨value, below⟩ := entries
    obtain ⟨_, written', alike⟩ := write_follows sim slots value slot _ written
    exact ⟨_, step_eq_ok.2 (.stores _ (sim.moves value moves) written'), alike, below⟩
  | constructs _ rest method void accepts initialized =>
    obtain ⟨_, _, rfl, arguments, _ | ⟨receiver, below⟩⟩ := exists_append_of_forall₂ entries
    obtain ⟨object', initialized', object, same, usable, usable'⟩ :=
      initialized_related sim receiver initialized
    have popped : Frame.Related L S ⟨locals', _⟩ ⟨locals, rest⟩ := ⟨slots, below⟩
    exact ⟨_, step_eq_ok.2 (.constructs _ _ (sim.method _ _ _ method).1 void
      (sim.accepts_all arguments accepts) initialized'),
      replace_related sim popped same usable usable' object⟩
  | throws _ rest object =>
    obtain _ | ⟨first, _⟩ := entries
    have object' := (sim.isReference_eq first).trans object
    exact ⟨_, step_eq_ok.2 (.throws _ _ object'), slots, .cons first .nil⟩

end Frame

end StackMaps
