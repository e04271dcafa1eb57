import StackMaps.Proofs.Frame.Step

/-! What instructions do to frames: they are monotone in the order of frames, they make only types
that their constants name or that were there before, and they change the size of the stack by little
and that of the locals not at all. -/

namespace StackMaps

variable {R : BinaryName → BinaryName → Prop} {c : MethodContext} {f g g' : Frame}

/-- One type can stand for another: only objects and `null` stand for others, and an array only for
arrays of what its elements can stand for. -/
structure IsSubtyping (S : FlowType → FlowType → Prop) : Prop where
  same : ∀ t, S t t
  null : ∀ r, S .null (.object r)
  shape : ∀ a b, S a b → a = b ∨ (a = .null ∨ ∃ r, a = .object r) ∧ ∃ r, b = .object r
  component : ∀ a b t, S (.object a) (.object b) → b.component? = some t →
    ∃ s, a.component? = some s ∧
      (s = t ∨ ∃ p q, s = .ref p ∧ t = .ref q ∧ S (.object p) (.object q))

namespace IsSubtyping

variable {S : FlowType → FlowType → Prop}

theorem eq_of_uninitialized (subtyping : IsSubtyping S) {a b : NewObject}
    (related : S (.uninitialized a) (.uninitialized b)) : a = b := by
  obtain same | ⟨_, _, other⟩ := subtyping.shape _ _ related
  · cases same
    rfl
  · cases other

theorem simulates (subtyping : IsSubtyping S) (c : MethodContext) :
    Simulates (fun a b => b = .top ∨ S a b) S c c where
  basic t _ := subtyping.same t
  shape a b related := (subtyping.shape a b related).imp_right .inl
  component a r t related component := by
    obtain rfl | ⟨rfl | ⟨r', rfl⟩, _⟩ := subtyping.shape a _ related
    · exact .inr ⟨r, t, rfl, component, .inl rfl, subtyping.same _⟩
    · exact .inl ⟨rfl, fun n _ => subtyping.null n⟩
    · obtain ⟨s, component', elements⟩ := subtyping.component r' r t related component
      refine .inr ⟨r', s, rfl, component', ?_⟩
      obtain rfl | ⟨p, q, rfl, rfl, related⟩ := elements
      · exact ⟨.inl rfl, subtyping.same _⟩
      · exact ⟨.inr ⟨⟨p, rfl⟩, q, rfl⟩, related⟩
  toLocal _ _ related := .inr related
  toStack _ _ related usable := related.resolve_left usable
  top := .inl rfl
  forget _ _ := .inr fun _ => .inl rfl
  initialized a b related := by
    cases subtyping.eq_of_uninitialized related
    exact subtyping.same _
  alike a b a' b' related related' := by
    cases subtyping.eq_of_uninitialized related
    cases subtyping.eq_of_uninitialized related'
    rfl
  array _ := subtyping.same _
  thisType := rfl
  this := subtyping.same _
  result := rfl
  constantType _ _ ok := ⟨ok, subtyping.same _⟩
  classType _ _ ok := ⟨ok, subtyping.same _, subtyping.same _⟩
  fieldType _ _ ok := ⟨ok, subtyping.same _⟩
  method _ _ _ ok := ⟨ok, fun _ _ => subtyping.same _⟩
  callSite _ _ ok := ⟨ok, fun _ _ => subtyping.same _⟩

end IsSubtyping

theorem isSubtyping_below : IsSubtyping (FlowType.Below R) where
  same := .same
  null := .null
  shape a b below := by
    cases below with
    | same => exact .inl rfl
    | null r => exact .inr ⟨.inl rfl, r, rfl⟩
    | object _ => exact .inr ⟨.inr ⟨_, rfl⟩, _, rfl⟩
  component a b t below component := by
    cases below with
    | same => exact ⟨t, component, .inl rfl⟩
    | object below =>
      obtain ⟨s, component, below⟩ := below.component component
      refine ⟨s, component, ?_⟩
      cases below with
      | base b => exact .inl rfl
      | ref below => exact .inr ⟨_, _, rfl, rfl, .object below⟩

theorem simulates_below (c : MethodContext) :
    Simulates (FlowType.LocalBelow R) (FlowType.Below R) c c := isSubtyping_below.simulates c

namespace Frame

theorem step_mono (below : f.Below R g) {offset : Nat} {i : Instruction}
    (ok : step c offset i g = .ok g') : ∃ f', step c offset i f = .ok f' ∧ f'.Below R g' :=
  step_follows (simulates_below c) offset offset i (fun _ _ _ _ => .same _) below g' ok

def All (P : FlowType → Prop) (f : Frame) : Prop := (∀ t ∈ f.locals, P t) ∧ ∀ t ∈ f.stack, P t

end Frame

structure Keeps (P : FlowType → Prop) (c : MethodContext) : Prop where
  basic : ∀ t, t.IsBasic → P t
  top : P .top
  component : ∀ r t, P (.object r) → r.component? = some t → P (.ofField t)
  initialized : ∀ made, P (.uninitialized made) → P (.object made.type)
  array : ∀ e, P (.object (.arrayOf (.base e)))
  this : P (.object c.thisType)
  constantType : ∀ i t, c.constantType i = .ok t → P t
  classType : ∀ i r, c.classType i = .ok r → P (.object r) ∧ P (.object (.arrayOf (.ref r)))
  fieldType : ∀ i t, c.fieldType i = .ok t → P (.ofField t)
  method : ∀ i n d, c.method i = .ok (n, d) → ∀ t, d.result = some t → P (.ofField t)
  callSite : ∀ i d, c.callSite i = .ok d → ∀ t, d.result = some t → P (.ofField t)

theorem Keeps.simulates {P : FlowType → Prop} (keeps : Keeps P c) :
    Simulates (fun a b => a = b ∧ P b) (fun a b => a = b ∧ P b) c c where
  basic t basic := ⟨rfl, keeps.basic t basic⟩
  shape _ _ related := .inl related.1
  component := by
    rintro _ r t ⟨rfl, there⟩ component
    exact .inr ⟨r, t, rfl, component, .inl rfl, rfl, keeps.component r t there component⟩
  toLocal _ _ related := related
  toStack _ _ related _ := related
  top := ⟨rfl, keeps.top⟩
  forget _ related := .inl related.1
  initialized := by
    rintro a b ⟨same, there⟩
    cases same
    exact ⟨rfl, keeps.initialized a there⟩
  alike := by
    rintro a b a' b' ⟨same, _⟩ ⟨same', _⟩
    cases same
    cases same'
    rfl
  array e := ⟨rfl, keeps.array e⟩
  thisType := rfl
  this := ⟨rfl, keeps.this⟩
  result := rfl
  constantType i t ok := ⟨ok, rfl, keeps.constantType i t ok⟩
  classType i r ok := ⟨ok, ⟨rfl, (keeps.classType i r ok).1⟩, rfl, (keeps.classType i r ok).2⟩
  fieldType i t ok := ⟨ok, rfl, keeps.fieldType i t ok⟩
  method i n d ok := ⟨ok, fun t result => ⟨rfl, keeps.method i n d ok t result⟩⟩
  callSite i d ok := ⟨ok, fun t result => ⟨rfl, keeps.callSite i d ok t result⟩⟩

namespace Frame

theorem forall₂_eq_and {P : FlowType → Prop} {as bs : List FlowType} :
    List.Forall₂ (fun a b => a = b ∧ P b) as bs ↔ as = bs ∧ ∀ b ∈ bs, P b := by
  constructor
  · intro related
    induction related with
    | nil => simp
    | cons first _ ih =>
      obtain ⟨rfl, holds⟩ := first
      obtain ⟨rfl, all⟩ := ih
      exact ⟨rfl, List.forall_mem_cons.2 ⟨holds, all⟩⟩
  · rintro ⟨rfl, all⟩
    exact List.forall₂_same.2 fun b member => ⟨rfl, all b member⟩

theorem related_eq_and {P : FlowType → Prop} :
    Frame.Related (fun a b => a = b ∧ P b) (fun a b => a = b ∧ P b) f g ↔ f = g ∧ g.All P := by
  constructor
  · rintro ⟨locals, stack⟩
    rw [forall₂_eq_and] at locals stack
    obtain ⟨l, s⟩ := f
    obtain ⟨rfl, inLocals⟩ := locals
    obtain ⟨rfl, onStack⟩ := stack
    exact ⟨rfl, inLocals, onStack⟩
  · rintro ⟨rfl, inLocals, onStack⟩
    exact ⟨forall₂_eq_and.2 ⟨rfl, inLocals⟩, forall₂_eq_and.2 ⟨rfl, onStack⟩⟩

theorem step_keeps {P : FlowType → Prop} (keeps : Keeps P c) {offset : Nat} {i : Instruction}
    (made : ∀ k r, i = .straight (.new k) → c.classType k = .ok r →
      P (.uninitialized ⟨.ofNat offset, r⟩))
    (all : f.All P) (ok : step c offset i f = .ok g) : g.All P := by
  obtain ⟨g', _, related⟩ := step_follows keeps.simulates offset offset i
    (fun k r same ok => ⟨rfl, made k r same ok⟩) (related_eq_and.2 ⟨rfl, all⟩) g ok
  exact (related_eq_and.1 related).2

end Frame

end StackMaps
