import StackMaps.Instruction.Decode

/-! An instruction is read from a piece of the code array and does not depend on what comes after it,
so that code can be cut between instructions and put together again. -/

namespace StackMaps

namespace CodeReader

variable {α β : Type}

/-- Whatever is read is read from the front and does not depend on the rest. -/
def IsLocal (r : CodeReader α) : Prop :=
  ∀ offset bytes a after, r ⟨offset, bytes⟩ = .ok (a, after) →
    ∃ taken, bytes = taken ++ after.rest ∧ after.offset = offset + taken.length ∧
      ∀ more, r ⟨offset, taken ++ more⟩ = .ok (a, ⟨after.offset, more⟩)

namespace IsLocal

theorem pure (a : α) : IsLocal (Pure.pure a) := by
  intro offset bytes _ _ ok
  cases ok
  exact ⟨[], rfl, rfl, fun _ => rfl⟩

theorem fail (fault : CodeFault) : IsLocal (CodeReader.fail fault : CodeReader α) := by
  intro _ _ _ _ ok
  cases ok

theorem uint8 : IsLocal CodeReader.uint8 := by
  intro offset bytes _ _ ok
  cases bytes with
  | nil => cases ok
  | cons b rest =>
    cases ok
    exact ⟨[_], rfl, rfl, fun _ => rfl⟩

theorem bind_eq_ok {r : CodeReader α} {f : α → CodeReader β} {c after : CodeCursor} {b : β} :
    (r >>= f) c = .ok (b, after) ↔ ∃ a middle, r c = .ok (a, middle) ∧ f a middle = .ok (b, after) := by
  change (r c >>= fun p => f p.1 p.2) = .ok (b, after) ↔ _
  cases r c with
  | error e => simp [Bind.bind, Except.bind]
  | ok p =>
    constructor
    · intro ok
      exact ⟨p.1, p.2, rfl, ok⟩
    · rintro ⟨a, middle, same, ok⟩
      cases same
      exact ok

theorem bind {r : CodeReader α} {f : α → CodeReader β} (first : IsLocal r)
    (next : ∀ a, IsLocal (f a)) : IsLocal (r >>= f) := by
  intro offset bytes b after ok
  obtain ⟨a, ⟨middle, rest⟩, oka, okb⟩ := bind_eq_ok.1 ok
  obtain ⟨taken, rfl, rfl, again⟩ := first offset bytes a _ oka
  obtain ⟨taken', rfl, place, again'⟩ := next a _ _ b after okb
  refine ⟨taken ++ taken', by simp, by simp [place, Nat.add_assoc], fun more => ?_⟩
  rw [List.append_assoc]
  exact bind_eq_ok.2 ⟨a, _, again _, again' more⟩

theorem map {r : CodeReader α} (f : α → β) (local_ : IsLocal r) : IsLocal (f <$> r) := by
  rw [← bind_pure_comp]
  exact local_.bind fun a => pure (f a)

theorem of_offset {r : CodeReader α} (at_ : Nat → CodeReader α)
    (same : ∀ offset bytes, r ⟨offset, bytes⟩ = at_ offset ⟨offset, bytes⟩)
    (local_ : ∀ offset, IsLocal (at_ offset)) : IsLocal r := by
  intro offset bytes a after ok
  rw [same] at ok
  obtain ⟨taken, split, place, again⟩ := local_ offset offset bytes a after ok
  exact ⟨taken, split, place, fun more => by rw [same]; exact again more⟩

theorem readNumber (width : Nat) : IsLocal (StackMaps.readNumber CodeReader.uint8 width) := by
  induction width with
  | zero => exact pure 0
  | succ width ih => exact uint8.bind fun _ => ih.bind fun _ => pure _

theorem readTimes {r : CodeReader α} (local_ : IsLocal r) (count : Nat) :
    IsLocal (StackMaps.readTimes r count) := by
  unfold StackMaps.readTimes
  generalize [] = done
  induction count generalizing done with
  | zero => exact pure _
  | succ count ih => exact local_.bind fun _ => ih _

theorem uint16 : IsLocal CodeReader.uint16 := (readNumber 2).map _
theorem int32 : IsLocal CodeReader.int32 := (readNumber 4).map _

theorem align : IsLocal CodeReader.align :=
  of_offset (fun offset => do
      let _ ← StackMaps.readTimes CodeReader.uint8 ((4 - offset % 4) % 4)
      return ())
    (fun _ _ => rfl) fun _ => (readTimes uint8 _).bind fun _ => pure ()

theorem require (length count : Nat) : IsLocal (CodeReader.require length count) :=
  of_offset (fun offset => if offset + count > length then CodeReader.fail .truncated else Pure.pure ())
    (fun _ _ => rfl)
    fun offset => by
      split
      · exact fail _
      · exact pure ()

theorem absolute (length here : Nat) (relative : Int) :
    IsLocal (CodeReader.absolute length here relative) := by
  unfold CodeReader.absolute
  simp only
  split
  · exact fail _
  · exact pure _

theorem shortTarget (length here : Nat) : IsLocal (CodeReader.shortTarget length here) :=
  (uint16.map _).bind fun _ => absolute length here _

theorem wideTarget (length here : Nat) : IsLocal (CodeReader.wideTarget length here) :=
  int32.bind fun _ => absolute length here _

end IsLocal

end CodeReader

namespace Instruction

open CodeReader

theorem isLocal_wideReader : IsLocal wideReader := by
  refine .bind .uint8 fun opcode => ?_
  split
  · exact .bind .uint16 fun _ => .bind (.map _ .uint16) fun _ => .pure _
  · split
    · exact .fail _
    · split
      · exact .fail _
      · refine .bind .uint16 fun slot => ?_
        split
        · exact .pure _
        · exact .fail _

theorem isLocal_tableSwitchReader (length here : Nat) : IsLocal (tableSwitchReader length here) := by
  refine .bind .align fun _ => .bind (.wideTarget length here) fun _ => .bind .int32 fun low => ?_
  refine .bind .int32 fun high => ?_
  split
  · exact .fail _
  · exact .bind (.require _ _) fun _ => .bind (.readTimes (.wideTarget length here) _) fun _ => .pure _

theorem isLocal_lookupSwitchReader (length here : Nat) :
    IsLocal (lookupSwitchReader length here) := by
  refine .bind .align fun _ => .bind (.wideTarget length here) fun _ => .bind .int32 fun count => ?_
  split
  · exact .fail _
  · refine .bind (.require _ _) fun _ => .bind (.readTimes ?_ _) fun _ => .pure _
    exact .bind .int32 fun _ => .bind (.wideTarget length here) fun _ => .pure _

theorem isLocal_branchReader {length here : Nat} {opcode : UInt8} {r : CodeReader Branch}
    (there : branchReader? length here opcode = some r) : IsLocal r := by
  unfold branchReader? at there
  have short : ∀ f : Nat → Branch, IsLocal (f <$> shortTarget length here) := fun f =>
    .map f (.shortTarget length here)
  split at there
  · obtain ⟨c, _, rfl⟩ := Option.map_eq_some_iff.1 there
    exact short _
  · split at there
    · obtain ⟨c, _, rfl⟩ := Option.map_eq_some_iff.1 there
      exact short _
    · split at there <;> cases there
      · exact short _
      · exact short _
      · exact short _
      · exact isLocal_tableSwitchReader length here
      · exact isLocal_lookupSwitchReader length here
      · exact short _
      · exact short _
      · exact .map _ (.wideTarget length here)

theorem isLocal_newArrayReader : IsLocal newArrayReader := by
  refine .bind .uint8 fun code => ?_
  split
  · exact .pure _
  · exact .fail _

theorem isLocal_straightReader {opcode : UInt8} {r : CodeReader Straight}
    (there : straightReader? opcode = some r) : IsLocal r := by
  have index : ∀ f : ConstantIndex → Straight, IsLocal (f <$> uint16) := fun f => .map f .uint16
  unfold straightReader? at there
  split at there <;> cases there
  · exact .map _ (.map _ .uint8)
  · exact .map _ (.map _ .uint16)
  · exact .map _ .uint8
  · exact index _
  · exact index _
  · exact .bind .uint8 fun _ => .bind (.map _ .uint8) fun _ => .pure _
  iterate 7 exact index _
  · exact .bind .uint16 fun _ => .bind .uint8 fun _ => .bind .uint8 fun _ => .pure _
  · exact .bind .uint16 fun _ => .bind .uint16 fun _ => .pure _
  · exact index _
  · exact isLocal_newArrayReader
  iterate 3 exact index _
  · exact isLocal_wideReader
  · exact .bind .uint16 fun _ => .bind .uint8 fun _ => .pure _

theorem reader_eq (length here : Nat) :
    ∃ operands : UInt8 → CodeReader Instruction,
      reader length here = uint8 >>= operands ∧ ∀ opcode, IsLocal (operands opcode) := by
  refine ⟨_, rfl, fun opcode => ?_⟩
  split
  · exact .pure _
  · split
    · exact .pure _
    · split
      · refine .bind .uint8 fun slot => ?_
        split
        · exact .pure _
        · exact .fail _
      · split
        next there => exact .map _ (isLocal_straightReader there)
        · split
          next there => exact .map _ (isLocal_branchReader there)
          · split
            · exact .fail _
            · exact .fail _

theorem reader_local {length here offset : Nat} {bytes : List UInt8} {i : Instruction}
    {after : CodeCursor} (ok : reader length here ⟨offset, bytes⟩ = .ok (i, after)) :
    ∃ taken, taken ≠ [] ∧ bytes = taken ++ after.rest ∧ after.offset = offset + taken.length ∧
      ∀ more, reader length here ⟨offset, taken ++ more⟩ = .ok (i, ⟨after.offset, more⟩) := by
  obtain ⟨operands, same, isLocal⟩ := reader_eq length here
  rw [same] at ok ⊢
  obtain ⟨taken, split, place, again⟩ := IsLocal.bind .uint8 isLocal offset bytes i after ok
  refine ⟨taken, fun empty => ?_, split, place, again⟩
  subst empty
  have nothing := again []
  cases nothing

end Instruction

end StackMaps
