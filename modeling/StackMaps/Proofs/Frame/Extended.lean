import StackMaps.Proofs.ClassFile.Entries
import StackMaps.Proofs.Frame.Transfer

/-! What can be looked up in a constant pool is found in every pool that grows from it, so an
instruction that passes goes on to pass when constants are added. -/

namespace StackMaps

namespace Pool

variable {α : Type} {p q : Pool} {i : ConstantIndex}

/-- Every constant of the second pool is a constant of the first, at the same index. -/
def Extends (q p : Pool) : Prop := ∀ i c, p.get? i = some c → q.get? i = some c

theorem Grows.extends (grows : p.Grows q) (built : p.Built) : q.Extends p :=
  fun _ _ found => grows.get? built found

namespace Extends

theorem utf8Bytes (extends_ : q.Extends p) {bytes : List UInt8} (ok : p.utf8Bytes i = .ok bytes) :
    q.utf8Bytes i = .ok bytes := by
  unfold Pool.utf8Bytes at ok ⊢
  split at ok
  next found =>
    cases ok
    simp only [extends_ _ _ found]
  next => cases ok

theorem utf8 (extends_ : q.Extends p) {text : String} (ok : p.utf8 i = .ok text) :
    q.utf8 i = .ok text := by
  obtain ⟨bytes, found, decoded⟩ := bind_eq_ok.1 ok
  exact bind_eq_ok.2 ⟨bytes, extends_.utf8Bytes found, decoded⟩

theorem className (extends_ : q.Extends p) {name : String} (ok : p.className i = .ok name) :
    q.className i = .ok name := by
  unfold Pool.className at ok ⊢
  split at ok
  next found =>
    simp only [extends_ _ _ found]
    exact extends_.utf8 ok
  next => cases ok

theorem classType (extends_ : q.Extends p) {r : RefType} (ok : p.classType i = .ok r) :
    q.classType i = .ok r := by
  unfold Pool.classType at ok ⊢
  split at ok
  next => cases ok
  next found =>
    simp only [extends_.className found]
    exact ok

theorem nameAndType (extends_ : q.Extends p) {name : String × String}
    (ok : p.nameAndType i = .ok name) : q.nameAndType i = .ok name := by
  unfold Pool.nameAndType at ok ⊢
  split at ok
  next found =>
    obtain ⟨name, first, ok⟩ := bind_eq_ok.1 ok
    obtain ⟨descriptor, second, ok⟩ := bind_eq_ok.1 ok
    cases ok
    simp only [extends_ _ _ found, extends_.utf8 first, extends_.utf8 second]
    rfl
  next => cases ok

theorem member (extends_ : q.Extends p) {m : ConstantIndex × String × String}
    (ok : p.member i = .ok m) : q.member i = .ok m := by
  unfold Pool.member at ok ⊢
  split at ok
  case h_3 => cases ok
  all_goals
    next found =>
    obtain ⟨names, named, ok⟩ := bind_eq_ok.1 ok
    cases ok
    simp only [extends_ _ _ found, extends_.nameAndType named]
    rfl

end Extends

end Pool

structure MethodContext.Extends (c' c : MethodContext) : Prop where
  pool : c'.pool.Extends c.pool
  thisType : c'.thisType = c.thisType
  result : c'.result = c.result

variable {L S : FlowType → FlowType → Prop} {R : BinaryName → BinaryName → Prop}
  {c' c : MethodContext} {i : ConstantIndex}

namespace MethodContext.Extends

theorem classType (extends_ : c'.Extends c) {r : RefType} (ok : c.classType i = .ok r) :
    c'.classType i = .ok r := by
  unfold MethodContext.classType at ok ⊢
  cases found : c.pool.classType i with
  | error e =>
    rw [found] at ok
    cases ok
  | ok r' =>
    rw [found] at ok
    rw [extends_.pool.classType found]
    exact ok

theorem constantType (extends_ : c'.Extends c) {t : FlowType} (ok : c.constantType i = .ok t) :
    c'.constantType i = .ok t := by
  unfold MethodContext.constantType at ok ⊢
  split at ok
  case h_9 found =>
    simp only [extends_.pool _ _ found]
    split at ok
    next => cases ok
    next named =>
      simp only [extends_.pool.nameAndType named]
      exact ok
  case h_10 => cases ok
  all_goals
    next found =>
    simp only [extends_.pool _ _ found]
    exact ok

theorem fieldType (extends_ : c'.Extends c) {t : FieldType} (ok : c.fieldType i = .ok t) :
    c'.fieldType i = .ok t := by
  unfold MethodContext.fieldType at ok ⊢
  split at ok
  next => cases ok
  next found =>
    simp only [extends_.pool.member found]
    exact ok

theorem method (extends_ : c'.Extends c) {m : String × MethodDescriptor} (ok : c.method i = .ok m) :
    c'.method i = .ok m := by
  unfold MethodContext.method at ok ⊢
  split at ok
  next => cases ok
  next found =>
    simp only [extends_.pool.member found]
    exact ok

theorem callSite (extends_ : c'.Extends c) {d : MethodDescriptor} (ok : c.callSite i = .ok d) :
    c'.callSite i = .ok d := by
  unfold MethodContext.callSite at ok ⊢
  split at ok
  next found =>
    simp only [extends_.pool _ _ found]
    split at ok
    next => cases ok
    next named =>
      simp only [extends_.pool.nameAndType named]
      exact ok
  next => cases ok

end MethodContext.Extends

theorem Simulates.extended (sim : Simulates L S c c) (extends_ : c'.Extends c) :
    Simulates L S c' c :=
  { sim with
    thisType := extends_.thisType
    result := extends_.result
    constantType := fun i t ok => (sim.constantType i t ok).imp_left extends_.constantType
    classType := fun i r ok => (sim.classType i r ok).imp_left extends_.classType
    fieldType := fun i t ok => (sim.fieldType i t ok).imp_left extends_.fieldType
    method := fun i n d ok => (sim.method i n d ok).imp_left extends_.method
    callSite := fun i d ok => (sim.callSite i d ok).imp_left extends_.callSite }

namespace Frame

variable {f g g' : Frame} {offset : Nat} {i : Instruction}

/-- An instruction that passes on a frame passes on every frame below it when constants have been
added, with a result below. -/
theorem step_mono_extended (extends_ : c'.Extends c) (below : f.Below R g)
    (ok : step c offset i g = .ok g') : ∃ f', step c' offset i f = .ok f' ∧ f'.Below R g' :=
  step_follows ((simulates_below c).extended extends_) offset offset i (fun _ _ _ _ => .same _) below g' ok

theorem step_extended (extends_ : c'.Extends c) (ok : step c offset i f = .ok g) :
    step c' offset i f = .ok g := by
  have keeps : Keeps (fun _ => True) c := by
    constructor <;> intros <;> trivial
  have all : f.All fun _ => True := ⟨fun _ _ => trivial, fun _ _ => trivial⟩
  obtain ⟨g', step, related⟩ := step_follows (keeps.simulates.extended extends_) offset offset i
    (fun _ _ _ _ => ⟨rfl, trivial⟩) (related_eq_and.2 ⟨rfl, all⟩) g ok
  rwa [(related_eq_and.1 related).1] at step

end Frame

end StackMaps
