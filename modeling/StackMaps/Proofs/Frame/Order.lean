import Mathlib.Data.List.Forall2
import StackMaps.Frame.Merge

/-! The order of frames over an order `R` of class names: an array of classes is as its element
class, an array of more dimensions is below an array of `java/lang/Object`, and `null` is below every
reference. A local can be given up for `top`, an entry of the stack cannot. -/

namespace StackMaps

structure Frame.Related (L S : FlowType → FlowType → Prop) (f g : Frame) : Prop where
  locals : List.Forall₂ L f.locals g.locals
  stack : List.Forall₂ S f.stack g.stack

section

variable (R : BinaryName → BinaryName → Prop)

def ElementType.Below : ElementType → ElementType → Prop
  | .object a, .object b => R a b
  | a, b => a = b

def RefType.Below : RefType → RefType → Prop
  | .object a, .object b => R a b
  | .array _ _, .object b => b = .object
  | .object _, .array _ _ => False
  | .array i a, .array j b => i = j ∧ a.Below R b ∨ j < i ∧ b = .object .object

inductive FieldType.Below : FieldType → FieldType → Prop
  | base (b : BaseType) : FieldType.Below (.base b) (.base b)
  | ref {a b : RefType} (below : a.Below R b) : FieldType.Below (.ref a) (.ref b)

inductive FlowType.Below : FlowType → FlowType → Prop
  | same (t : FlowType) : FlowType.Below t t
  | null (r : RefType) : FlowType.Below .null (.object r)
  | object {a b : RefType} (below : a.Below R b) : FlowType.Below (.object a) (.object b)

def FlowType.LocalBelow (a b : FlowType) : Prop := b = .top ∨ FlowType.Below R a b

abbrev Frame.Below : Frame → Frame → Prop :=
  Frame.Related (FlowType.LocalBelow R) (FlowType.Below R)

/-- An order of class names with nothing above `java/lang/Object`. -/
structure IsNameOrder : Prop where
  refl : ∀ a, R a a
  trans : ∀ a b c, R a b → R b c → R a c
  eq_object : ∀ a, R .object a → a = .object

end

variable {R : BinaryName → BinaryName → Prop}

namespace ElementType

theorem Below.refl (order : IsNameOrder R) (a : ElementType) : a.Below R a := by
  cases a with
  | base b => rfl
  | object a => exact order.refl a

theorem Below.trans (order : IsNameOrder R) {a b c : ElementType} (ab : a.Below R b)
    (bc : b.Below R c) : a.Below R c := by
  cases a <;> cases b <;> cases c <;> simp only [Below, reduceCtorEq] at ab bc ⊢
  · exact ab.trans bc
  · exact order.trans _ _ _ ab bc

theorem Below.antisymm (antisymm : ∀ a b, R a b → R b a → a = b) {a b : ElementType}
    (ab : a.Below R b) (ba : b.Below R a) : a = b := by
  cases a <;> cases b
  case object.object a b => exact congrArg _ (antisymm a b ab ba)
  all_goals exact ab

theorem Below.eq_object (order : IsNameOrder R) {a : ElementType}
    (above : Below R (.object .object) a) : a = .object .object := by
  cases a with
  | base b => cases above
  | object a => rw [order.eq_object a above]

end ElementType

namespace RefType

theorem Below.refl (order : IsNameOrder R) (a : RefType) : a.Below R a := by
  cases a with
  | object a => exact order.refl a
  | array i a => exact .inl ⟨rfl, .refl order a⟩

theorem Below.trans (order : IsNameOrder R) {a b c : RefType} (ab : a.Below R b)
    (bc : b.Below R c) : a.Below R c := by
  cases a with
  | object a =>
    cases b with
    | array j b => exact ab.elim
    | object b =>
      cases c with
      | object c => exact order.trans _ _ _ ab bc
      | array k c => exact bc.elim
  | array i a =>
    cases b with
    | object b =>
      cases (show b = .object from ab)
      cases c with
      | object c => exact order.eq_object c bc
      | array k c => exact bc.elim
    | array j b =>
      cases c with
      | object c => exact bc
      | array k c =>
        obtain ⟨rfl, ab⟩ | ⟨deeper, rfl⟩ := ab
        · exact bc.imp_left fun ⟨same, bc⟩ => ⟨same, ab.trans order bc⟩
        · obtain ⟨rfl, bc⟩ | ⟨less, rfl⟩ := bc
          · exact .inr ⟨deeper, bc.eq_object order⟩
          · exact .inr ⟨Nat.lt_trans less deeper, rfl⟩

theorem Below.antisymm (antisymm : ∀ a b, R a b → R b a → a = b) {a b : RefType}
    (ab : a.Below R b) (ba : b.Below R a) : a = b := by
  cases a with
  | object a =>
    cases b with
    | object b => exact congrArg _ (antisymm a b ab ba)
    | array j b => exact ab.elim
  | array i a =>
    cases b with
    | object b => exact ba.elim
    | array j b =>
      obtain ⟨rfl, ab⟩ | ⟨deeper, _⟩ := ab
      · obtain ⟨_, ba⟩ | ⟨deeper, _⟩ := ba
        · rw [ab.antisymm antisymm ba]
        · exact absurd deeper (Nat.lt_irrefl i)
      · obtain ⟨same, _⟩ | ⟨deeper', _⟩ := ba
        · exact absurd same (Nat.ne_of_lt deeper)
        · exact absurd deeper (Nat.lt_asymm deeper')

theorem Below.component {a b : RefType} {t : FieldType} (below : a.Below R b)
    (component : b.component? = some t) :
    ∃ s, a.component? = some s ∧ s.Below R t := by
  cases b with
  | object b => cases component
  | array j b =>
    cases a with
    | object a => exact below.elim
    | array i a =>
      obtain ⟨rfl, below⟩ | ⟨deeper, rfl⟩ := below
      · cases i with
        | zero =>
          cases component
          refine ⟨_, rfl, ?_⟩
          cases a <;> cases b <;> simp only [ElementType.Below, reduceCtorEq] at below
          · cases below
            exact .base _
          · exact .ref below
        | succ i =>
          cases component
          exact ⟨_, rfl, .ref (.inl ⟨rfl, below⟩)⟩
      · cases i with
        | zero => omega
        | succ i =>
          cases j with
          | zero =>
            cases component
            exact ⟨_, rfl, .ref rfl⟩
          | succ j =>
            cases component
            exact ⟨_, rfl, .ref (.inr ⟨by omega, rfl⟩)⟩

end RefType

namespace FlowType

theorem Below.trans (order : IsNameOrder R) {a b c : FlowType} (ab : FlowType.Below R a b)
    (bc : FlowType.Below R b c) : FlowType.Below R a c := by
  cases ab with
  | same => exact bc
  | null r =>
    cases bc with
    | same => exact .null r
    | object _ => exact .null _
  | object ab =>
    cases bc with
    | same => exact .object ab
    | object bc => exact .object (ab.trans order bc)

theorem Below.antisymm (antisymm : ∀ a b, R a b → R b a → a = b) {a b : FlowType}
    (ab : FlowType.Below R a b) (ba : FlowType.Below R b a) : a = b := by
  cases ab with
  | same => rfl
  | null r => cases ba
  | object ab =>
    cases ba with
    | same => rfl
    | object ba => rw [ab.antisymm antisymm ba]

theorem LocalBelow.refl (t : FlowType) : LocalBelow R t t := .inr (.same t)

theorem LocalBelow.trans (order : IsNameOrder R) {a b c : FlowType} (ab : LocalBelow R a b)
    (bc : LocalBelow R b c) : LocalBelow R a c := by
  obtain rfl | bc := bc
  · exact .inl rfl
  · obtain rfl | ab := ab
    · cases bc
      exact .inl rfl
    · exact .inr (ab.trans order bc)

theorem LocalBelow.antisymm (antisymm : ∀ a b, R a b → R b a → a = b) {a b : FlowType}
    (ab : LocalBelow R a b) (ba : LocalBelow R b a) : a = b := by
  obtain rfl | ab := ab
  · obtain rfl | ba := ba
    · rfl
    · cases ba
      rfl
  · obtain rfl | ba := ba
    · cases ab
      rfl
    · exact ab.antisymm antisymm ba

end FlowType

namespace Frame

theorem Below.refl (f : Frame) : f.Below R f :=
  ⟨List.forall₂_same.2 fun _ _ => .refl _, List.forall₂_same.2 fun _ _ => .same _⟩

theorem Below.atHandler {f g : Frame} (below : f.Below R g) (type : RefType) :
    (Frame.atHandler f.locals type).Below R (.atHandler g.locals type) :=
  ⟨below.locals, .cons (.same _) .nil⟩

theorem forall₂_trans {α : Type} {S : α → α → Prop} (trans : ∀ a b c, S a b → S b c → S a c)
    {as bs cs : List α} (ab : List.Forall₂ S as bs) (bc : List.Forall₂ S bs cs) :
    List.Forall₂ S as cs := by
  induction ab generalizing cs with
  | nil => exact bc
  | cons first _ ih =>
    cases bc with
    | cons first' rest => exact .cons (trans _ _ _ first first') (ih rest)

theorem Below.trans (order : IsNameOrder R) {f g h : Frame} (fg : f.Below R g)
    (gh : g.Below R h) : f.Below R h :=
  ⟨forall₂_trans (fun _ _ _ ab bc => ab.trans order bc) fg.locals gh.locals,
    forall₂_trans (fun _ _ _ ab bc => ab.trans order bc) fg.stack gh.stack⟩

theorem forall₂_antisymm {α : Type} {S : α → α → Prop} (antisymm : ∀ a b, S a b → S b a → a = b)
    {as bs : List α} (ab : List.Forall₂ S as bs) (ba : List.Forall₂ S bs as) : as = bs := by
  induction ab with
  | nil => rfl
  | cons first _ ih =>
    cases ba with
    | cons first' rest' => rw [antisymm _ _ first first', ih rest']

theorem Below.antisymm (antisymm : ∀ a b, R a b → R b a → a = b) {f g : Frame} (fg : f.Below R g)
    (gf : g.Below R f) : f = g := by
  obtain ⟨locals, stack⟩ := f
  have sameLocals : locals = g.locals :=
    forall₂_antisymm (fun _ _ ab ba => ab.antisymm antisymm ba) fg.locals gf.locals
  have sameStack : stack = g.stack :=
    forall₂_antisymm (fun _ _ ab ba => ab.antisymm antisymm ba) fg.stack gf.stack
  rw [sameLocals, sameStack]

end Frame

end StackMaps
