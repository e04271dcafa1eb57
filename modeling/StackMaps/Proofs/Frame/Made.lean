import StackMaps.Proofs.Table.Expand

/-! Objects under construction in a frame. They come into it by `new` alone, and the offset of the
`new` is all that tells objects of a class apart: under other offsets instructions do the same. -/

namespace StackMaps

variable {c : MethodContext} {f g : Frame} {offset : Nat} {i : Instruction}
  {object : NewObject} {ρ : UInt16 → UInt16}

def FlowType.made? : FlowType → Option NewObject
  | .uninitialized made => some made
  | _ => none

theorem FlowType.made?_eq_some {t : FlowType} : t.made? = some object ↔ t = .uninitialized object := by
  cases t <;> simp [made?]

namespace Frame

/-- The objects under construction in locals and on the stack, as often as they are there. -/
def made (f : Frame) : List NewObject := (f.locals ++ f.stack).filterMap FlowType.made?

theorem mem_made :
    object ∈ f.made ↔ .uninitialized object ∈ f.locals ∨ .uninitialized object ∈ f.stack := by
  simp only [made, List.mem_filterMap, List.mem_append, FlowType.made?_eq_some]
  constructor
  · rintro ⟨_, there, rfl⟩
    exact there
  · intro there
    exact ⟨_, there, rfl⟩

theorem all_ofMade {Q : NewObject → Prop} : f.All (FlowType.OfMade Q) ↔ ∀ made ∈ f.made, Q made := by
  constructor
  · rintro ⟨inLocals, onStack⟩ made there
    obtain there | there := mem_made.1 there
    · exact inLocals _ there made rfl
    · exact onStack _ there made rfl
  · intro all
    refine ⟨fun t there made same => ?_, fun t there made same => ?_⟩
    · subst same
      exact all made (mem_made.2 (.inl there))
    · subst same
      exact all made (mem_made.2 (.inr there))

theorem mem_made_atHandler {r : RefType} (there : object ∈ (atHandler f.locals r).made) :
    object ∈ f.made := by
  obtain there | there := mem_made.1 there
  · exact mem_made.2 (.inl there)
  · simp [atHandler] at there

theorem made_of_step (ok : step c offset i f = .ok g) (there : object ∈ g.made) : object ∈ f.made ∨
    ∃ k r, i = .straight (.new k) ∧ c.classType k = .ok r ∧ object = ⟨.ofNat offset, r⟩ := by
  have keeps := keeps_ofMade (fun object => object ∈ f.made ∨ ∃ k r, i = .straight (.new k) ∧
    c.classType k = .ok r ∧ object = ⟨.ofNat offset, r⟩) c
  refine all_ofMade.1 (step_keeps keeps (fun k r new named made same => ?_)
    (all_ofMade.2 fun _ => .inl) ok) object there
  cases same
  exact .inr ⟨k, r, new, named, rfl⟩

theorem step_new_eq_ok {k : ConstantIndex} : step c offset (.straight (.new k)) f = .ok g ↔
    ∃ r, c.classType k = .ok r ∧ r.isArray = false ∧ g = f.push (.uninitialized ⟨.ofNat offset, r⟩) := by
  unfold step straight
  rw [bind_eq_ok]
  refine exists_congr fun r => and_congr_right fun _ => ?_
  cases r.isArray with
  | true => exact ⟨nofun, nofun⟩
  | false => exact ⟨fun ok => by cases ok; exact ⟨rfl, rfl⟩, fun ⟨_, same⟩ => by rw [same]; rfl⟩

theorem made_push : (f.push (.uninitialized object)).made.Perm (object :: f.made) := by
  simp only [made, push, List.filterMap_append, List.filterMap_cons, FlowType.made?]
  exact List.perm_middle

end Frame

def NewObject.rename (ρ : UInt16 → UInt16) (made : NewObject) : NewObject :=
  { made with offset := ρ made.offset }

def FlowType.rename (ρ : UInt16 → UInt16) : FlowType → FlowType
  | .uninitialized made => .uninitialized (made.rename ρ)
  | t => t

def Frame.rename (ρ : UInt16 → UInt16) (f : Frame) : Frame :=
  ⟨f.locals.map (FlowType.rename ρ), f.stack.map (FlowType.rename ρ)⟩

theorem NewObject.rename_injective (injective : Function.Injective ρ) :
    Function.Injective (NewObject.rename ρ) := by
  intro a b same
  obtain ⟨offsets, types⟩ := NewObject.mk.inj same
  cases a
  cases b
  exact congrArg₂ NewObject.mk (injective offsets) types

/-- Relates a type to the same one under other offsets. -/
def FlowType.IsRenamed (ρ : UInt16 → UInt16) (a b : FlowType) : Prop := a = b.rename ρ

theorem FlowType.isRenamed_ofField (t : FieldType) : IsRenamed ρ (.ofField t) (.ofField t) := by
  obtain b | r := t
  · cases b <;> rfl
  · rfl

/-- The offset of a `new` plays no part in what instructions do to a frame. -/
theorem simulates_rename (injective : Function.Injective ρ) (c : MethodContext) :
    Simulates (FlowType.IsRenamed ρ) (FlowType.IsRenamed ρ) c c where
  basic t basic := by cases t <;> first | rfl | exact basic.elim
  shape a b renamed := by
    cases b with
    | uninitialized made => exact .inr (.inr ⟨⟨_, renamed⟩, _, rfl⟩)
    | _ => exact .inl renamed
  component a r t renamed component :=
    .inr ⟨r, t, renamed, component, .inl rfl, FlowType.isRenamed_ofField t⟩
  toLocal _ _ renamed := renamed
  toStack _ _ renamed _ := renamed
  top := rfl
  forget _ renamed := .inl renamed
  initialized a b renamed := by
    cases renamed
    rfl
  alike a b a' b' renamed renamed' := by
    cases renamed
    cases renamed'
    exact (NewObject.rename_injective injective).eq_iff
  array _ := rfl
  thisType := rfl
  this := rfl
  result := rfl
  constantType i t ok := by
    refine ⟨ok, ?_⟩
    obtain basic | ⟨r, rfl⟩ := MethodContext.constantType_cases ok
    · cases t <;> first | rfl | exact basic.elim
    · rfl
  classType _ _ ok := ⟨ok, rfl, rfl⟩
  fieldType _ t ok := ⟨ok, FlowType.isRenamed_ofField t⟩
  method _ _ _ ok := ⟨ok, fun t _ => FlowType.isRenamed_ofField t⟩
  callSite _ _ ok := ⟨ok, fun t _ => FlowType.isRenamed_ofField t⟩

namespace Frame

theorem related_isRenamed :
    Frame.Related (FlowType.IsRenamed ρ) (FlowType.IsRenamed ρ) g f ↔ g = f.rename ρ := by
  have each (as bs : List FlowType) :
      List.Forall₂ (FlowType.IsRenamed ρ) as bs ↔ as = bs.map (FlowType.rename ρ) := by
    rw [← List.forall₂_eq_eq_eq, List.forall₂_map_right_iff]
    rfl
  constructor
  · rintro ⟨locals, stack⟩
    exact congrArg₂ Frame.mk ((each _ _).1 locals) ((each _ _).1 stack)
  · rintro rfl
    exact ⟨(each _ _).2 rfl, (each _ _).2 rfl⟩

theorem step_rename (injective : Function.Injective ρ) (offset' : Nat)
    (moved : ∀ k, i = .straight (.new k) → UInt16.ofNat offset' = ρ (.ofNat offset))
    (ok : step c offset i f = .ok g) : step c offset' i (f.rename ρ) = .ok (g.rename ρ) := by
  obtain ⟨g', ok', related⟩ := step_follows (simulates_rename injective c) offset' offset i
    (fun k r new _ => by rw [moved k new]; rfl) (related_isRenamed.2 rfl) g ok
  rw [ok', related_isRenamed.1 related]

theorem rename_eq_self (fixed : ∀ object ∈ f.made, ρ object.offset = object.offset) :
    f.rename ρ = f := by
  have keep (t : FlowType) (own : t.OfMade fun object => ρ object.offset = object.offset) :
      t.rename ρ = t := by
    cases t with
    | uninitialized object =>
      exact congrArg VerificationType.uninitialized (congrArg₂ NewObject.mk (own object rfl) rfl)
    | _ => rfl
  obtain ⟨inLocals, onStack⟩ := all_ofMade.2 fixed
  have locals := List.map_congr_left fun t there => keep t (inLocals t there)
  have stack := List.map_congr_left fun t there => keep t (onStack t there)
  rw [rename, locals, stack, List.map_id', List.map_id']

end Frame

end StackMaps
