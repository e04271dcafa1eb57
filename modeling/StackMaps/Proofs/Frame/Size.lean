import StackMaps.Proofs.Frame.Rules

/-! An instruction adds at most two entries to the stack and leaves the number of locals as it is. -/

namespace StackMaps

theorem length_le_totalWidth (ts : List FlowType) : ts.length ≤ totalWidth ts := by
  induction ts with
  | nil => exact Nat.le_refl _
  | cons t ts ih =>
    have slots := t.width_cases
    rw [List.length_cons, totalWidth]
    omega

theorem StackOp.length_rearranged {op : StackOp} {top below : List FlowType}
    (taken : totalWidth top = op.taken) :
    (op.rearranged top below).length ≤ (top ++ below).length + 2 := by
  have few := length_le_totalWidth top
  have taken_le : op.taken ≤ 2 := by cases op <;> decide
  cases op <;> simp only [rearranged, List.length_append] <;> omega

theorem MethodDescriptor.length_left (d : MethodDescriptor) : d.left.length ≤ 1 := by
  unfold left
  cases d.result <;> simp

theorem Straight.length_effect {s : Straight} {taken left : List FlowType}
    (effect : s.effect? = some (taken, left)) : left.length ≤ 1 := by
  cases s <;> cases effect <;> simp

theorem Instruction.Takes.length_le {c : MethodContext} {offset : Nat} {i : Instruction}
    {locals taken left : List FlowType} (takes : i.Takes c offset locals taken left) :
    left.length ≤ taken.length + 2 := by
  cases takes with
  | effect effect =>
    have few := Straight.length_effect effect
    omega
  | stack taken _ => exact StackOp.length_rearranged taken
  | @invokeStatic _ _ d | @invokeDynamic _ d | @invoke _ _ _ d =>
    have few := d.length_left
    omega
  | _ => simp

namespace LocalSlots

theorem length_spoilWide (i : Nat) (locals : List FlowType) :
    (spoilWide i locals).length = locals.length := by
  unfold spoilWide
  split <;> simp

theorem length_write {t : FlowType} {slot : UInt16} {locals written : List FlowType}
    (ok : write t slot locals = .ok written) : written.length = locals.length := by
  simp only [write] at ok
  split at ok
  next => cases ok
  next =>
    have spoilt : (if slot.toNat = 0 then locals else spoilWide (slot.toNat - 1) locals).length =
        locals.length := by
      split
      · rfl
      · exact length_spoilWide _ _
    cases ok
    split <;> simp only [List.length_set, spoilt]

end LocalSlots

open LocalSlots

namespace Frame

structure Near (f g : Frame) : Prop where
  locals : g.locals.length = f.locals.length
  stack : g.stack.length ≤ f.stack.length + 2

theorem step_near {c : MethodContext} {offset : Nat} {i : Instruction} {f g : Frame}
    (ok : step c offset i f = .ok g) : f.Near g := by
  cases step_eq_ok.1 ok with
  | takes rest takes =>
    have few := takes.length_le
    exact ⟨rfl, by simp only [List.length_append]; omega⟩
  | stores rest _ written => exact ⟨length_write written, by simp only [List.length_cons]; omega⟩
  | constructs locals rest =>
    refine ⟨List.length_map .., ?_⟩
    simp only [replace, List.length_map, List.length_append, List.length_cons]
    omega
  | throws => exact ⟨rfl, by simp⟩

end Frame

end StackMaps
