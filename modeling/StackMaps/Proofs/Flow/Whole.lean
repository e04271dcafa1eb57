import StackMaps.Hierarchy.ClassGraph
import StackMaps.Proofs.Flow.Entered
import StackMaps.Proofs.Flow.Merged
import StackMaps.Proofs.Frame.Mentions
import StackMaps.Proofs.Rebuild.Frames

/-! Wide locals stay whole. Whatever frames the loop of the analysis holds, over any source of class
headers, they have the locals of the method, no half of a long or double among them, and nothing
unusable on the stack. -/

namespace StackMaps

open MonadAttach LawfulMonadAttach Relation

theorem MethodContext.constantType_ne_top {c : MethodContext} {i : ConstantIndex} {t : FlowType}
    (ok : c.constantType i = .ok t) : t ≠ .top := by
  obtain basic | ⟨r, rfl⟩ := constantType_cases ok
  · rintro rfl
    exact basic
  · exact nofun

theorem simulates_usable (c : MethodContext) : Simulates Eq (fun a b => a = b ∧ b ≠ .top) c c where
  basic t basic := by
    refine ⟨rfl, ?_⟩
    rintro rfl
    exact basic
  shape _ _ related := .inl related.1
  component := by
    rintro _ r t ⟨rfl, _⟩ component
    exact .inr ⟨r, t, rfl, component, .inl rfl, rfl, FlowType.ofField_ne_top t⟩
  toLocal _ _ related := related.1
  toStack _ _ same usable := ⟨same, usable⟩
  top := rfl
  forget _ same := .inl same
  initialized := by
    rintro a b ⟨same, _⟩
    cases same
    exact ⟨rfl, nofun⟩
  alike := by
    rintro a b a' b' ⟨same, _⟩ ⟨same', _⟩
    cases same
    cases same'
    rfl
  array _ := ⟨rfl, nofun⟩
  thisType := rfl
  this := ⟨rfl, nofun⟩
  result := rfl
  constantType _ _ ok := ⟨ok, rfl, MethodContext.constantType_ne_top ok⟩
  classType _ _ ok := ⟨ok, ⟨rfl, nofun⟩, rfl, nofun⟩
  fieldType _ t ok := ⟨ok, rfl, FlowType.ofField_ne_top t⟩
  method _ _ _ ok := ⟨ok, fun t _ => ⟨rfl, FlowType.ofField_ne_top t⟩⟩
  callSite _ _ ok := ⟨ok, fun t _ => ⟨rfl, FlowType.ofField_ne_top t⟩⟩

namespace Frame

variable {f g t : Frame} {n : Nat}

theorem step_usable {c : MethodContext} {offset : Nat} {i : Instruction} (usable : .top ∉ f.stack)
    (ok : step c offset i f = .ok g) : .top ∉ g.stack := by
  have related : f.Related Eq (fun a b => a = b ∧ b ≠ .top) f :=
    ⟨List.forall₂_same.2 fun _ _ => rfl,
      forall₂_eq_and.2 ⟨rfl, fun t there same => usable (same ▸ there)⟩⟩
  obtain ⟨_, _, related⟩ := step_follows (simulates_usable c) offset offset i
    (fun _ _ _ _ => ⟨rfl, nofun⟩) related g ok
  exact fun there => (forall₂_eq_and.1 related.stack).2 _ there rfl

/-- A frame of a method with so many locals, with no half of a long or double among them, and nothing
unusable on the stack. -/
structure IsWhole (maxLocals : Nat) (f : Frame) : Prop where
  length : f.locals.length = maxLocals
  wide : ∀ i t, f.locals[i]? = some t → t = .long ∨ t = .double →
    i + 1 < maxLocals ∧ f.locals[i + 1]? = some .top
  usable : .top ∉ f.stack

theorem isWhole_iff :
    f.IsWhole n ↔ f.locals.length = n ∧ Paired f.locals ∧ .top ∉ f.stack := by
  constructor
  · intro whole
    exact ⟨whole.length, fun i t there wide => (whole.wide i t there (FlowType.width_eq_two.1 wide)).2,
      whole.usable⟩
  · rintro ⟨rfl, paired, usable⟩
    refine ⟨rfl, fun i t there wide => ?_, usable⟩
    have second := paired i t there (FlowType.width_eq_two.2 wide)
    exact ⟨(List.getElem?_eq_some_iff.1 second).1, second⟩

theorem IsWhole.step (whole : f.IsWhole n) {c : MethodContext} {offset : Nat} {i : Instruction}
    (ok : step c offset i f = .ok g) : g.IsWhole n := by
  obtain ⟨length, paired, usable⟩ := isWhole_iff.1 whole
  exact isWhole_iff.2
    ⟨(step_near ok).locals.trans length, step_paired paired ok, step_usable usable ok⟩

theorem IsWhole.atHandler (whole : f.IsWhole n) (type : RefType) :
    (Frame.atHandler f.locals type).IsWhole n :=
  ⟨whole.length, whole.wide, by simp [Frame.atHandler]⟩

end Frame

theorem Signature.initialFrame_isWhole {signature : Signature} {maxLocals : UInt16} {initial : Frame}
    (ok : signature.initialFrame maxLocals = .ok initial) : initial.IsWhole maxLocals.toNat := by
  obtain ⟨length, stack⟩ := Signature.length_initialFrame ok
  refine Frame.isWhole_iff.2 ⟨length, ?_, by simp [stack]⟩
  rw [Signature.initialFrame_eq ok]
  exact Frame.fill_paired _ _

variable {m : Type → Type} [Monad m] [LawfulMonad m] [MonadAttach m] [LawfulMonadAttach m]
  {s : HeaderSource m}

theorem Frame.IsWhole.merge {f g t : Frame} {n offset : Nat} (left : f.IsWhole n) (right : g.IsWhole n)
    (returns : CanReturn (Frame.merge s offset f g) t) : t.IsWhole n := by
  obtain ⟨lengthf, pairedf, usablef⟩ := isWhole_iff.1 left
  obtain ⟨lengthg, pairedg, _⟩ := isWhole_iff.1 right
  obtain ⟨locals, stack⟩ := mergedBy_of_merge returns
  rw [List.take_of_length_le (by omega), List.take_of_length_le (by omega)] at locals
  refine isWhole_iff.2 ⟨locals.length_merged.trans lengthf, ?_, fun there => ?_⟩
  · refine locals.paired (fun a b t merges wide => ?_) (fun t merges => ?_) pairedf pairedg
    · obtain rfl | same | ⟨⟨_, rfl⟩, _⟩ := FlowType.mergeLocal_returns merges
      · cases wide
      · exact same
      · cases wide
    · obtain same | ⟨same, _⟩ | ⟨_, reference, _⟩ := FlowType.mergeLocal_returns merges
      · exact same
      · exact same.symm
      · cases reference
  · obtain ⟨a, own, b, _, merges⟩ := stack.of_mem there
    obtain ⟨rfl, _⟩ | ⟨⟨_, same⟩, _⟩ := FlowType.merge_returns merges
    · exact usablef own
    · cases same

def Moment.current : Moment → List Frame
  | .between _ => []
  | .before _ f _ _ | .leaving _ f _ _ => [f]
  | .raising _ f after _ _ _ | .raised _ f after _ _ _ _ => [f, after]

/-- The loop holds a frame: it has been found for a block, or control is at it. -/
def Moment.Holds (moment : Moment) (f : Frame) : Prop :=
  f ∈ moment.current ∨ ∃ n : Nat, moment.state.entry[n]? = some f

namespace FlowGraph

open FlowState

variable {g : FlowGraph} {P : Frame → Prop} {st st' : FlowState} {f initial : Frame} {target : Nat}
  {moment moment' : Moment}

structure Sustains (s : HeaderSource m) (g : FlowGraph) (P : Frame → Prop) : Prop where
  step : ∀ located f after, g.stepAt located f = .ok after → P f → P after
  caught : ∀ f type, P f → P (.atHandler f.locals type)
  merge : ∀ offset f f' t, CanReturn (Frame.merge s offset f f') t → P f → P f' → P t

theorem Sustains.arrive (sustains : g.Sustains s P) (own : P f)
    (old : ∀ (n : Nat) f', st.entry[n]? = some f' → P f')
    (arrives : CanReturn (st.arrive s target f) st') (n : Nat) (f' : Frame)
    (there : st'.entry[n]? = some f') : P f' := by
  obtain ⟨_, rfl⟩ | ⟨existing, merged, known, merges, ⟨_, rfl⟩ | ⟨_, rfl⟩⟩ := arrive_returns arrives
  · exact of_assign old own n f' there
  · exact old n f' there
  · exact of_assign old (sustains.merge target existing f merged merges (old target existing known) own)
      n f' there

theorem Sustains.move (sustains : g.Sustains s P) (move : g.Moves s moment moment')
    (before : ∀ f, moment.Holds f → P f) (f : Frame) (holds : moment'.Holds f) : P f := by
  have found (n : Nat) (f : Frame) (there : moment.state.entry[n]? = some f) : P f :=
    before f (.inr ⟨n, there⟩)
  have present (f : Frame) (here : f ∈ moment.current) : P f := before f (.inl here)
  cases move with
  | visit _ _ entry =>
    obtain here | ⟨n, there⟩ := holds
    · rw [List.mem_singleton.1 here]
      exact found _ _ entry
    · exact found n f there
  | skip => exact before f (holds.imp_left nofun)
  | @check _ f₀ _ _ _ _ step =>
    have own := present f₀ List.mem_cons_self
    obtain here | ⟨n, there⟩ := holds
    · obtain rfl | here := List.mem_cons.1 here
      · exact own
      · rw [List.mem_singleton.1 here]
        exact sustains.step _ _ _ step own
    · exact found n f there
  | @raise _ f₀ _ _ c _ st _ arrives =>
    obtain here | ⟨n, there⟩ := holds
    · exact present f here
    · have found : ∀ (n : Nat) (f : Frame), (st.see 1).entry[n]? = some f → P f := found
      exact sustains.arrive (sustains.caught f₀ c.type (present f₀ List.mem_cons_self)) found arrives n f
        there
  | @raiseAfter _ _ after _ c _ _ _ arrives =>
    obtain here | ⟨n, there⟩ := holds
    · exact present f here
    · exact sustains.arrive (sustains.caught after c.type (present after (by simp [Moment.current])))
        found arrives n f there
  | goOn =>
    obtain here | ⟨n, there⟩ := holds
    · exact present f (List.mem_cons_of_mem _ here)
    · exact found n f there
  | leave => exact before f holds
  | @pass _ f₀ _ _ _ _ arrives =>
    obtain here | ⟨n, there⟩ := holds
    · exact present f here
    · exact sustains.arrive (present f₀ List.mem_cons_self) found arrives n f there
  | left | empty => exact before f (holds.imp_left nofun)

/-- What holds of the frame on entry, and is kept by instructions, handlers and merges, holds of all
frames at all times. -/
theorem Meets.holds (sustains : g.Sustains s P) (start : P initial) (meets : g.Meets s initial moment)
    (f : Frame) (holds : moment.Holds f) : P f := by
  induction meets generalizing f with
  | refl =>
    obtain here | ⟨n, there⟩ := holds
    · cases here
    · exact of_entering (Q := fun _ => P) start n f there
  | tail _ move ih => exact sustains.move move ih f holds

end FlowGraph

/-- Where the analysis of a method can get to. -/
def Analysis.Meets (s : HeaderSource m) (signature : Signature) (code : Code) (pool : Pool)
    (moment : Moment) : Prop :=
  ∃ g initial, FlowGraph.ofCode signature code pool = .ok g ∧
    signature.initialFrame code.maxLocals = .ok initial ∧ g.Meets s initial moment

variable {signature : Signature} {code : Code} {pool : Pool} {moment : Moment} {f : Frame}

theorem Analysis.Meets.isWhole (meets : Analysis.Meets s signature code pool moment)
    (holds : moment.Holds f) : f.IsWhole code.maxLocals.toNat := by
  obtain ⟨g, initial, _, entered, meets⟩ := meets
  refine FlowGraph.Meets.holds ⟨?_, ?_, ?_⟩ (Signature.initialFrame_isWhole entered) meets f holds
  · exact fun _ _ _ step whole => whole.step (FlowGraph.stepAt_eq_ok.1 step)
  · exact fun _ type whole => whole.atHandler type
  · exact fun _ _ _ _ returns left right => left.merge right returns

/-- At all times, all frames of the analysis have the locals of the method, no half of a long or double
among them, and nothing unusable on the stack; and so have those that it returns. -/
theorem Analysis.all_whole :
    (∀ moment f, Analysis.Meets s signature code pool moment → moment.Holds f →
      f.IsWhole code.maxLocals.toNat) ∧
    ∀ a, CanReturn (Analysis.run s signature code pool) a → a.initial.IsWhole code.maxLocals.toNat ∧
      ∀ (n : Nat) f, a.entry[n]? = some f → f.IsWhole code.maxLocals.toNat := by
  refine ⟨fun _ _ meets => meets.isWhole, fun a returns => ?_⟩
  obtain ⟨g, st, found⟩ := Analysis.foundBy_of_run returns
  have meets : Analysis.Meets s signature code pool (.between st) :=
    ⟨g, a.initial, found.ofCode, found.initial, found.meets⟩
  refine ⟨Signature.initialFrame_isWhole found.initial, fun n f there => ?_⟩
  rw [found.entry] at there
  exact meets.isWhole (.inr ⟨n, there⟩)

def copySignature : Signature := ⟨.object, "copy", ⟨[.base .long], none⟩, true⟩

def copyCode : Code := ⟨2, 4, [0x1e, 0x41, 0xa7, 0, 3, 0xb1], [], []⟩

theorem Analysis.all_whole_copy : ∃ a moment f f',
    CanReturn (Analysis.run (ClassGraph.standard.hierarchy .empty).source copySignature copyCode .empty) a ∧
    a.entry[5]? = some f ∧ f.locals[0]? = some .long ∧ f.locals[2]? = some .long ∧ f.IsWhole 4 ∧
    Analysis.Meets (ClassGraph.standard.hierarchy .empty).source copySignature copyCode .empty moment ∧
    moment.Holds f' ∧ f'.locals[0]? = some .long ∧ f'.IsWhole 4 := by
  have facts : (do
      let a ← answer
        (Analysis.run (ClassGraph.standard.hierarchy .empty).source copySignature copyCode .empty)
      return a.initial.locals[0]? = some .long && a.entry[5]?.any fun f =>
        f.locals[0]? = some .long && f.locals[2]? = some .long : Except Error Bool) = .ok true := by
    decide +kernel
  obtain ⟨a, returns, facts⟩ := bind_eq_ok.1 facts
  have facts := Except.ok.inj facts
  simp only [Option.any_eq_true, Bool.and_eq_true, decide_eq_true_eq] at facts
  obtain ⟨wide, f, entry, first, second⟩ := facts
  have returns : CanReturn
      (Analysis.run (ClassGraph.standard.hierarchy .empty).source copySignature copyCode .empty) a := returns
  obtain ⟨g, st, found⟩ := Analysis.foundBy_of_run returns
  have meets : Analysis.Meets (ClassGraph.standard.hierarchy .empty).source copySignature copyCode .empty
      (.between (.entering a.initial)) := ⟨g, a.initial, found.ofCode, found.initial, .refl⟩
  have holds : (Moment.between (.entering a.initial)).Holds a.initial :=
    .inr ⟨0, by rw [Moment.state, FlowState.getElem?_entering, if_pos rfl]⟩
  exact ⟨a, _, f, a.initial, returns, entry, first, second, (Analysis.all_whole.2 a returns).2 5 f entry,
    meets, holds, wide, Analysis.all_whole.1 _ _ meets holds⟩

end StackMaps
