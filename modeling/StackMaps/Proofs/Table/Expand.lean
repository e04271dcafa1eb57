import StackMaps.Flow.Rebuild
import StackMaps.Proofs.Frame.Mentions
import StackMaps.Proofs.Table.Replay

/-! A stack map table names no class for an object under construction: it is that of the instruction
that makes the object. With these classes filled in, frames that were read are frames that
instructions can be checked against. -/

namespace StackMaps

def made? (pool : Pool) (code : List Located) (offset : UInt16) : Option NewObject := do
  let located ← code.find? (·.offset = offset.toNat)
  match located.instruction with
  | .straight (.new i) => return ⟨offset, ← (pool.classType i).toOption⟩
  | _ => none

def VerificationType.lookUp {κ υ υ' : Type} (f : υ → Option υ') :
    VerificationType κ υ → Option (VerificationType κ υ')
  | top => some .top
  | int => some .int
  | float => some .float
  | double => some .double
  | long => some .long
  | null => some .null
  | uninitializedThis => some .uninitializedThis
  | object type => some (.object type)
  | uninitialized made => (f made).map .uninitialized

def ReadFrame.expand (pool : Pool) (code : List Located) (f : ReadFrame) : Option Frame := do
  let locals ← f.locals.mapM (·.lookUp (made? pool code))
  let stack ← f.stack.mapM (·.lookUp (made? pool code))
  return ⟨locals, stack.reverse⟩

def Rebuilt.expandTable (r : Rebuilt) (signature : Signature) (code : List Located) :
    Option (List (Nat × Frame)) :=
  if r.summary.frames = 0 then some []
  else do
    (← r.code.readTable r.pool signature).mapM fun (offset, f) => do
      return (offset, ← f.expand r.pool code)

variable {pool : Pool} {code : List Located} {f g : Frame} {R : BinaryName → BinaryName → Prop}
  {Q : NewObject → Prop} {c : MethodContext}

def Frame.pad (maxLocals : Nat) (f : Frame) : Frame :=
  { f with locals := f.locals ++ List.replicate (maxLocals - f.locals.length) .top }

theorem Frame.pad_eq {maxLocals : Nat} (enough : maxLocals ≤ f.locals.length) :
    f.pad maxLocals = f := by
  rw [pad, Nat.sub_eq_zero_of_le enough, List.replicate_zero, List.append_nil]

/-- The type is that of an object under construction only if the object satisfies `Q`. -/
def FlowType.OfMade (Q : NewObject → Prop) (t : FlowType) : Prop := ∀ made, t = .uninitialized made → Q made

theorem FlowType.lookUp_read {t : FlowType} (known : t.OfMade fun made => made? pool code made.offset = some made) :
    t.read.lookUp (made? pool code) = some t := by
  cases t with
  | uninitialized made => exact congrArg (Option.map VerificationType.uninitialized) (known made rfl)
  | _ => rfl

theorem Frame.expand_read {maxLocals : Nat}
    (known : f.All (FlowType.OfMade fun made => made? pool code made.offset = some made)) :
    (f.read maxLocals).expand pool code = some (f.pad maxLocals) := by
  have each (ts : List FlowType)
      (known : ∀ t ∈ ts, t.OfMade fun made => made? pool code made.offset = some made) :
      (ts.map FlowType.read).mapM (·.lookUp (made? pool code)) = some ts := by
    induction ts with
    | nil => rfl
    | cons t ts ih =>
      obtain ⟨first, rest⟩ := List.forall_mem_cons.1 known
      rw [List.map_cons, List.mapM_cons, ih rest, FlowType.lookUp_read first]
      rfl
  have locals := each (f.locals ++ List.replicate (maxLocals - f.locals.length) .top) fun t there => by
    obtain there | there := List.mem_append.1 there
    · exact known.1 t there
    · rw [List.eq_of_mem_replicate there]
      exact nofun
  have stack := each f.stack.reverse fun t there => known.2 t (List.mem_reverse.1 there)
  simp only [ReadFrame.expand, read, locals, stack, Option.bind_eq_bind, Option.bind_some,
    List.reverse_reverse]
  rfl

theorem Frame.Below.ofMade (below : f.Below R g) (all : f.All (FlowType.OfMade Q)) :
    g.All (FlowType.OfMade Q) := by
  have source {ts us : List FlowType} {S : FlowType → FlowType → Prop}
      (keep : ∀ t made, S t (.uninitialized made) → t = .uninitialized made)
      (related : List.Forall₂ S ts us) (all : ∀ t ∈ ts, t.OfMade Q) : ∀ u ∈ us, u.OfMade Q := by
    induction related with
    | nil => exact nofun
    | cons first _ ih =>
      obtain ⟨own, rest⟩ := List.forall_mem_cons.1 all
      refine List.forall_mem_cons.2 ⟨?_, ih rest⟩
      rintro made rfl
      exact own made (keep _ made first)
  have keep (t : FlowType) (made : NewObject) (below : FlowType.Below R t (.uninitialized made)) :
      t = .uninitialized made := by
    cases below
    rfl
  refine ⟨source (fun t made below => ?_) below.locals all.1, source keep below.stack all.2⟩
  exact keep t made (below.resolve_left nofun)

theorem FlowType.ofMade_ofField (t : FieldType) : FlowType.OfMade Q (.ofField t) := by
  cases t with
  | base b => cases b <;> exact nofun
  | ref => exact nofun

theorem keeps_ofMade (Q : NewObject → Prop) (c : MethodContext) : Keeps (FlowType.OfMade Q) c := by
  have basic (t : FlowType) (basic : t.IsBasic) : t.OfMade Q := by
    rintro made rfl
    exact False.elim basic
  exact {
    basic
    top := nofun
    component := fun _ t _ _ => FlowType.ofMade_ofField t
    initialized := fun _ _ => nofun
    array := fun _ => nofun
    this := nofun
    constantType := fun i t ok => by
      obtain plain | ⟨r, rfl⟩ := MethodContext.constantType_cases ok
      · exact basic t plain
      · exact nofun
    classType := fun _ _ _ => ⟨nofun, nofun⟩
    fieldType := fun _ t _ => FlowType.ofMade_ofField t
    method := fun _ _ _ _ t _ => FlowType.ofMade_ofField t
    callSite := fun _ _ _ t _ => FlowType.ofMade_ofField t }

end StackMaps
