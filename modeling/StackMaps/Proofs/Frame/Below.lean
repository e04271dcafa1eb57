import StackMaps.Proofs.ClassFile.Entries
import StackMaps.Proofs.Frame.Simulation
import StackMaps.Proofs.Frame.Widths

/-! Instructions act on the top of the stack. Apart from a throw, one that succeeds also does so on a
deeper stack, with the same effect, and what is further down stays as it is; only a constructor call
reaches down, to make every copy of its receiver an object. -/

namespace StackMaps

def Instruction.constructor? (c : MethodContext) : Instruction → Option MethodDescriptor
  | .straight (.invoke .special i) =>
    match c.method i with
    | .ok (name, d) => if name = "<init>" then some d else none
    | .error _ => none
  | _ => none

/-- The instruction changes a local: it stores there, or the second slot of what it stores is there, or
the first slot of a wide value whose second slot it stores to. -/
def Instruction.Writes (i : Instruction) (locals : List FlowType) (j : Nat) : Prop :=
  ∃ kind slot, i = .straight (.store kind slot) ∧ (j = slot.toNat ∨
    j = slot.toNat + 1 ∧ (∃ n : Numeric, kind = .numeric n ∧ width n.type = 2) ∨
    j + 1 = slot.toNat ∧ ∃ t, locals[j]? = some t ∧ width t = 2)

def FlowType.replacing (old new t : FlowType) : FlowType := if t = old then new else t

namespace Frame

/-- The same frame on top of more entries. -/
def onto (f : Frame) (below : List FlowType) : Frame := ⟨f.locals, f.stack ++ below⟩

/-- The instruction takes `f` to `g`, on top of whatever entries: these and the locals that it does not
write are renamed. -/
structure ActsOnTop (c : MethodContext) (offset : Nat) (i : Instruction) (f g : Frame)
    (rename : FlowType → FlowType) : Prop where
  deeper : ∀ below, step c offset i (f.onto below) = .ok (g.onto (below.map rename))
  locals : ∀ j, ¬ i.Writes f.locals j → g.locals[j]? = f.locals[j]?.map rename

def Keeps (f : Frame) (below : List FlowType) (deeper alone : Checked Frame) : Prop :=
  Follows (fun g' g => g' = g.onto below ∧ g.locals = f.locals) deeper alone

variable {c : MethodContext} {offset : Nat} {f g : Frame} (below : List FlowType)

theorem Steps.onto_of_takes {i : Instruction} {locals taken left : List FlowType} (rest : List FlowType)
    (takes : i.Takes c offset locals taken left) :
    Steps c offset i (onto ⟨locals, taken ++ rest⟩ below) (onto ⟨locals, left ++ rest⟩ below) := by
  simp only [onto, List.append_assoc]
  exact .takes (rest ++ below) takes

theorem constructor?_eq_some {i : Instruction} {d : MethodDescriptor} : i.constructor? c = some d ↔
    ∃ k, i = .straight (.invoke .special k) ∧ c.method k = .ok ("<init>", d) := by
  constructor
  · intro calls
    unfold Instruction.constructor? at calls
    split at calls
    next k =>
      split at calls
      next name d' named =>
        split at calls
        next same =>
          cases calls
          subst same
          exact ⟨k, rfl, named⟩
        next => cases calls
      next => cases calls
    next => cases calls
  · rintro ⟨k, rfl, named⟩
    simp [Instruction.constructor?, named]

theorem straight_keeps (s : Straight) (f : Frame) (noStore : ∀ kind slot, s ≠ .store kind slot)
    (plain : (Instruction.straight s).constructor? c = none) :
    Keeps f below (straight c offset s (f.onto below)) (straight c offset s f) := by
  intro g ok
  cases straight_steps ok with
  | takes rest takes => exact ⟨_, step_eq_ok.2 (.onto_of_takes below rest takes), rfl, rfl⟩
  | stores => exact absurd rfl (noStore _ _)
  | constructs _ _ method =>
    have calls := constructor?_eq_some.2 ⟨_, rfl, method⟩
    cases plain.symm.trans calls

theorem branch_keeps (b : Branch) (f : Frame) (noThrow : b ≠ .throw) :
    Keeps f below (branch c b (f.onto below)) (branch c b f) := by
  intro g ok
  have steps : Steps c 0 (.branch b) f g := branch_steps ok
  cases steps with
  | takes rest takes => exact ⟨_, step_eq_ok.2 (.onto_of_takes below rest takes), rfl, rfl⟩
  | throws => exact absurd rfl noThrow

end Frame

theorem LocalSlots.getElem?_write_of_ne {t : FlowType} {slot : UInt16} {locals written : List FlowType}
    (ok : write t slot locals = .ok written) {j : Nat} (notFirst : j ≠ slot.toNat)
    (notSecond : ¬ (j = slot.toNat + 1 ∧ width t = 2))
    (notBefore : ¬ (j + 1 = slot.toNat ∧ ∃ u, locals[j]? = some u ∧ width u = 2)) :
    written[j]? = locals[j]? := by
  rw [getElem?_write ok, if_neg notFirst, if_neg notSecond]
  split
  next before =>
    cases there : locals[j]? with
    | none => rfl
    | some u => rw [Option.map_some, if_neg fun wide => notBefore ⟨before, u, there, wide⟩]
  next => rfl

namespace Frame

variable {c : MethodContext} {offset : Nat} {i : Instruction} {f g : Frame}

theorem store_acts {kind : ValueKind} {slot : UInt16} (ok : straight c offset (.store kind slot) f = .ok g) :
    ActsOnTop c offset (.straight (.store kind slot)) f g id := by
  cases straight_steps ok with
  | takes _ takes => exact absurd takes Instruction.Takes.not_store
  | @stores _ _ t _ _ rest moves written =>
    refine ⟨fun below => ?_, fun j unwritten => ?_⟩
    · rw [List.map_id]
      exact step_eq_ok.2 (.stores (rest ++ below) moves written)
    · -- the value stored is wide only if the instruction says so
      have wide (two : width t = 2) : ∃ n : Numeric, kind = .numeric n ∧ width n.type = 2 := by
        cases kind with
        | numeric n => exact ⟨n, rfl, (congrArg width (show t = n.type from moves)).symm.trans two⟩
        | reference => cases (FlowType.width_of_isReference moves).symm.trans two
      rw [Option.map_id]
      refine LocalSlots.getElem?_write_of_ne written (fun here => ?_) (fun ⟨here, two⟩ => ?_)
        fun ⟨here, there⟩ => ?_
      · exact unwritten ⟨kind, slot, rfl, .inl here⟩
      · exact unwritten ⟨kind, slot, rfl, .inr (.inl ⟨here, wide two⟩)⟩
      · exact unwritten ⟨kind, slot, rfl, .inr (.inr ⟨here, there⟩)⟩

theorem ActsOnTop.of_keeps
    (keeps : ∀ below, Keeps f below (step c offset i (f.onto below)) (step c offset i f))
    (ok : step c offset i f = .ok g) : ActsOnTop c offset i f g id where
  deeper below := by
    obtain ⟨_, deeper, rfl, _⟩ := keeps below g ok
    rw [List.map_id, deeper]
  locals j _ := by
    obtain ⟨_, _, _, same⟩ := keeps [] g ok
    rw [same, Option.map_id, id]

theorem replacing_ne {receiver object : FlowType} (made : initialized? c receiver = some object)
    (t : FlowType) : FlowType.replacing receiver object t ≠ receiver := by
  unfold FlowType.replacing
  split
  next => cases receiver <;> cases made <;> exact nofun
  next other => exact other

theorem constructor_acts {d : MethodDescriptor} (calls : i.constructor? c = some d)
    (ok : step c offset i f = .ok g) : ∃ receiver object,
      f.stack[d.parameters.length]? = some receiver ∧ initialized? c receiver = some object ∧
      ActsOnTop c offset i f g (FlowType.replacing receiver object) ∧ receiver ∉ g.locals ∧
      ∀ below : List FlowType, receiver ∉ g.stack ++ below.map (FlowType.replacing receiver object) := by
  obtain ⟨k, rfl, named⟩ := constructor?_eq_some.1 calls
  cases step_eq_ok.1 ok with
  | takes _ takes => exact absurd takes (Instruction.Takes.not_constructor named)
  | @constructs _ _ arguments receiver object locals rest method void accepts made =>
    cases named.symm.trans method
    have gone (ts : List FlowType) : receiver ∉ ts.map (FlowType.replacing receiver object) := by
      rintro there
      obtain ⟨t, _, same⟩ := List.mem_map.1 there
      exact replacing_ne made t same
    have count : arguments.length = d.parameters.length := by simp [← accepts.length_eq]
    refine ⟨receiver, object, ?_, made, ⟨fun below => ?_, fun j _ => ?_⟩, gone _, fun below => ?_⟩
    · rw [← count, List.getElem?_append_right (Nat.le_refl _), Nat.sub_self]
      rfl
    · have steps : Steps c offset _ _ _ := .constructs locals (rest ++ below) method void accepts made
      simp only [replace, List.map_append] at steps
      rw [onto, List.append_assoc]
      exact step_eq_ok.2 steps
    · exact List.getElem?_map
    · exact List.not_mem_append (gone rest) (gone below)

/-- An instruction that succeeds acts on the top of the stack, except for a throw, which clears it. On
top of whatever entries it does the same, and does not touch them or the locals that it does not write,
unless it calls a constructor: then its receiver becomes an object wherever it is, and is gone. -/
theorem acts_on_top (noThrow : i ≠ .branch .throw) (ok : step c offset i f = .ok g) :
    (i.constructor? c = none ∧ ActsOnTop c offset i f g id) ∨
    ∃ d receiver object, i.constructor? c = some d ∧ f.stack[d.parameters.length]? = some receiver ∧
      initialized? c receiver = some object ∧
      ActsOnTop c offset i f g (FlowType.replacing receiver object) ∧ receiver ∉ g.locals ∧
      ∀ below : List FlowType, receiver ∉ g.stack ++ below.map (FlowType.replacing receiver object) := by
  cases calls : i.constructor? c with
  | some d =>
    obtain ⟨receiver, object, acts⟩ := constructor_acts calls ok
    exact .inr ⟨d, receiver, object, rfl, acts⟩
  | none =>
    -- stores are apart: they alone write locals
    refine .inl ⟨rfl, ?_⟩
    cases i with
    | straight s =>
      by_cases store : ∃ kind slot, s = .store kind slot
      · obtain ⟨kind, slot, rfl⟩ := store
        exact store_acts ok
      · exact .of_keeps (fun below => straight_keeps below s f
          (fun kind slot same => store ⟨kind, slot, same⟩) calls) ok
    | branch b =>
      exact .of_keeps (fun below => branch_keeps below b f fun same => noThrow (same ▸ rfl)) ok

def initContext : MethodContext where
  pool := .ofList [.utf8 [0x41], .cls 1, .utf8 [0x3c, 0x69, 0x6e, 0x69, 0x74, 0x3e],
    .utf8 [0x28, 0x29, 0x56], .nameAndType 3 4, .methodRef 2 5 false]
  thisType := .object .object
  result := none

theorem acts_on_top_init :
    step initContext 0 (.straight (.invoke .special 6)) ⟨[.uninitializedThis], [.uninitializedThis]⟩ =
      .ok ⟨[.object (.object .object)], []⟩ ∧
    step initContext 0 (.straight (.invoke .special 6))
      ⟨[.uninitializedThis], [.uninitializedThis, .int, .uninitializedThis]⟩ =
      .ok ⟨[.object (.object .object)], [.int, .object (.object .object)]⟩ := by
  have calls : (Instruction.straight (.invoke .special 6)).constructor? initContext = some ⟨[], none⟩ := by
    decide +kernel
  have ok : step initContext 0 (.straight (.invoke .special 6)) ⟨[.uninitializedThis], [.uninitializedThis]⟩ =
      .ok ⟨[.object (.object .object)], []⟩ := by decide +kernel
  refine ⟨ok, ?_⟩
  obtain ⟨none, _⟩ | ⟨d, receiver, object, called, first, made, acts, _⟩ :=
    acts_on_top (fun throws => Instruction.noConfusion throws) ok
  · cases none.symm.trans calls
  · cases called.symm.trans calls
    cases first
    cases made
    exact acts.deeper [.int, .uninitializedThis]

end Frame

end StackMaps
