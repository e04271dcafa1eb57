import StackMaps.Proofs.ClassFile.Codec
import StackMaps.Proofs.Frame.StackMapFrame

/-! The two attributes whose bodies are looked into are read from what is written for them. Code is
read from nothing else; a stack map table can have been written with more bytes. -/

namespace StackMaps.Attribute

/-- The body of a method is read from exactly what is written for it. A stack map table that can be
written is read again, and one that was read can be written: as the bytes it was read from or as
fewer, which are read as the same table. -/
theorem bodies_read_back :
    (∀ (body : List UInt8) (code : Code),
      Code.ofBody body = .ok code ↔ code.Fits ∧ body = code.encode) ∧
    (∀ table : StackMapTable, table.length < 65536 → (∀ f ∈ table, f.Fits) →
      StackMapTable.ofBody table.encode = .ok table) ∧
    ∀ (body : List UInt8) (table : StackMapTable), StackMapTable.ofBody body = .ok table →
      (∀ f ∈ table, f.fault? = none) ∧
      (body = table.encode ∨ table.encode.length < body.length) ∧
      StackMapTable.ofBody table.encode = .ok table := by
  refine ⟨fun body code => decodeBody_eq_ok Code.decoder_exact,
    fun table few fits => StackMapTable.ofBody_encode few fits, fun body table ok => ?_⟩
  obtain ⟨⟨few, fits⟩, shorter⟩ := StackMapTable.written_of_ofBody ok
  exact ⟨fun f there => (fits f there).fault?_eq_none, shorter,
    StackMapTable.ofBody_encode few fits⟩

def guarded : Code where
  maxStack := 2
  maxLocals := 1
  bytes := [0x2a, 0xb1]
  handlers := [⟨0, 1, 1, none⟩, ⟨0, 1, 1, some 4⟩]
  attributes := [⟨5, [0, 1, 1]⟩]

/-- Entries of every form, with deltas on both sides of the longest that a tag can hold. -/
def mixed : StackMapTable :=
  [.same 63, .same 64, .sameLocals 63 .int, .sameLocals 64 (.object 9), .chop 1 3,
    .append 2 [.long, .top, .double], .full 3 [.uninitializedThis] [.null, .uninitialized 4]]

theorem bodies_read_back_mixed :
    Code.ofBody guarded.encode = .ok guarded ∧
    StackMapTable.ofBody mixed.encode = .ok mixed ∧
    StackMapTable.ofBody [0, 2, 251, 0, 63, 247, 0, 5, 1] = .ok [.same 63, .sameLocals 5 .int] ∧
    (StackMapTable.encode [.same 63, .sameLocals 5 .int]).length < 9 ∧
    StackMapTable.ofBody (StackMapTable.encode [.same 63, .sameLocals 5 .int]) =
      .ok [.same 63, .sameLocals 5 .int] := by
  obtain ⟨code, tables, again⟩ := bodies_read_back
  have fits : guarded.Fits := by
    refine ⟨?_, ?_, ?_, ?_, ?_⟩ <;> simp [guarded, Fits]
  have all : ∀ f ∈ mixed, f.Fits := by simp [mixed, StackMapFrame.Fits]
  have long : StackMapTable.ofBody [0, 2, 251, 0, 63, 247, 0, 5, 1] =
      .ok [.same 63, .sameLocals 5 .int] := by decide +kernel
  obtain ⟨_, same | shorter, back⟩ := again _ _ long
  · exact absurd same (by decide)
  · exact ⟨(code _ _).2 ⟨fits, rfl⟩, tables mixed (by decide) all, long, shorter, back⟩

end StackMaps.Attribute
