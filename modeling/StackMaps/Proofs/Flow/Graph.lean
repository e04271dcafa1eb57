import Mathlib.Logic.Basic
import StackMaps.Proofs.Answer
import StackMaps.Proofs.Flow.Block

/-! The data flow of a method whose code decodes and whose handlers are of use never leads to a place
where no block starts. -/

namespace StackMaps

variable {signature : Signature} {code : Code} {pool : Pool} {located : List Located}
  {clauses : List CatchClause}

structure Handler.Fits (h : Handler) (located : List Located) (length : Nat) : Prop where
  start : ∃ l ∈ located, l.offset = h.start.toNat
  nonempty : h.start.toNat < h.stop.toNat
  stop_le : h.stop.toNat ≤ length
  stop : h.stop.toNat = length ∨ ∃ l ∈ located, l.offset = h.stop.toNat
  target : ∃ l ∈ located, l.offset = h.target.toNat

theorem ite_some_eq_none {α : Type} {p : Prop} [Decidable p] {a : α} {x : Option α} :
    (if p then some a else x) = none ↔ ¬ p ∧ x = none := by
  by_cases h : p <;> simp [h]

theorem Handler.badOffset?_eq_none {h : Handler} {length : Nat} :
    h.badOffset? (Instruction.starts located) length = none ↔ h.Fits located length := by
  have contains : ∀ n, (Instruction.starts located).contains n = true ↔
      ∃ l ∈ located, l.offset = n := fun n => by
    rw [Std.TreeSet.contains_iff_mem, Instruction.mem_starts]
  simp only [Handler.badOffset?, ite_some_eq_none, Bool.or_eq_true, Bool.and_eq_true,
    Bool.not_eq_true', decide_eq_true_eq, not_or, not_and, Bool.not_eq_false, contains, Nat.not_le,
    Nat.not_lt, and_true, ne_eq]
  constructor
  · rintro ⟨⟨start, nonempty⟩, ⟨stop_le, stop⟩, target⟩
    exact ⟨start, nonempty, stop_le, or_iff_not_imp_left.2 stop, target⟩
  · rintro ⟨start, nonempty, stop_le, stop, target⟩
    exact ⟨⟨start, nonempty⟩, ⟨stop_le, or_iff_not_imp_left.1 stop⟩, target⟩

theorem Handler.fault?_eq_none {handlers : List Handler} {length : Nat} :
    Handler.fault? handlers (Instruction.starts located) length = none ↔
      ∀ h ∈ handlers, h.Fits located length := by
  unfold Handler.fault?
  rw [List.findSome?_eq_none_iff]
  refine forall₂_congr fun h _ => ?_
  rw [Option.map_eq_none_iff, Handler.badOffset?_eq_none]

structure Code.Holds (code : Code) (located : List Located) : Prop where
  nonempty : code.bytes ≠ []
  decodes : Decodes code.bytes.length 0 code.bytes located
  targets : ∀ l ∈ located, ∀ target ∈ l.instruction.targets, ∃ l' ∈ located, l'.offset = target
  handlers : ∀ h ∈ code.handlers, h.Fits located code.bytes.length

theorem Code.instructions_eq_ok : code.instructions = .ok located ↔ code.Holds located := by
  unfold Code.instructions
  rw [bind_eq_ok]
  constructor
  · rintro ⟨all, decoded, ok⟩
    cases read : Instruction.decodeAll code.bytes with
    | error e =>
      rw [read] at decoded
      cases decoded
    | ok all' =>
      rw [read] at decoded
      cases decoded
      split at ok
      next => cases ok
      next fits =>
        cases ok
        obtain ⟨nonempty, decodes, targets⟩ := Instruction.decodeAll_eq_ok.1 read
        exact ⟨nonempty, decodes, targets, Handler.fault?_eq_none.1 fits⟩
  · rintro ⟨nonempty, decodes, targets, handlers⟩
    refine ⟨located, ?_, ?_⟩
    · rw [Instruction.decodeAll_eq_ok.2 ⟨nonempty, decodes, targets⟩]
      rfl
    · rw [Handler.fault?_eq_none.2 handlers]
      rfl

/-- The data flow leads from block to block. -/
structure FlowGraph.IsClosed (g : FlowGraph) : Prop where
  first : ∃ b, g.blocks[0]? = some b
  start : ∀ (n : Nat) (b : Block), g.blocks[n]? = some b → b.start = n
  nonempty : ∀ (n : Nat) (b : Block), g.blocks[n]? = some b → b.code ≠ []
  successors : ∀ (n : Nat) (b : Block) last targets, g.blocks[n]? = some b → b.code.getLast? = some last →
    g.successors last = .ok targets → ∀ t ∈ targets, ∃ b', g.blocks[t]? = some b'
  clauses : ∀ c ∈ g.clauses, ∃ b, g.blocks[c.target]? = some b

namespace Code.Holds

theorem code_ne_nil (holds : code.Holds located) : located ≠ [] := fun none =>
  holds.nonempty (holds.decodes.eq_nil_iff.1 none)

theorem exists_first (holds : code.Holds located) : ∃ l ∈ located, l.offset = 0 := by
  cases located with
  | nil => exact absurd rfl holds.code_ne_nil
  | cons head rest => exact ⟨head, List.mem_cons_self, holds.decodes.offset_eq⟩

theorem cut (holds : code.Holds located) :
    Block.Cut (Block.leaders located code.handlers code.bytes.length) code.bytes.length located
      (code.blocks located) :=
  Block.split_cut holds.code_ne_nil

theorem pieces (holds : code.Holds located) :
    Block.Pieces code.bytes.length 0 code.bytes (code.blocks located) :=
  holds.cut.pieces holds.decodes (Nat.zero_add _).symm

theorem pairwise (holds : code.Holds located) :
    (code.blocks located).Pairwise fun a b => a.stop ≤ b.start := holds.pieces.pairwise

theorem block_decodes (holds : code.Holds located) {b : Block} (member : b ∈ code.blocks located) :
    ∃ front piece back, code.bytes = front ++ piece ++ back ∧ b.start = front.length ∧
      b.stop = b.start + piece.length ∧ Decodes code.bytes.length b.start piece b.code := by
  obtain ⟨front, piece, back, split, start, stop, decodes⟩ := holds.pieces.decodes member
  exact ⟨front, piece, back, split, by simpa using start, stop, decodes⟩

theorem block_code_ne_nil (holds : code.Holds located) {b : Block}
    (member : b ∈ code.blocks located) : b.code ≠ [] := by
  obtain ⟨head, tail, held⟩ := holds.cut.holds member
  rw [held.code]
  simp

theorem start_lt_stop (holds : code.Holds located) {b : Block} (member : b ∈ code.blocks located) :
    b.start < b.stop := by
  obtain ⟨front, piece, back, _, _, stop, decodes⟩ := holds.block_decodes member
  have := decodes.length_pos (holds.block_code_ne_nil member)
  omega

theorem straight (holds : code.Holds located) {b : Block} (member : b ∈ code.blocks located)
    {l : Located} (there : l ∈ b.code.dropLast) : l.instruction.isBranch = false := by
  obtain ⟨front, piece, back, whole, start, stop, decodes⟩ := holds.block_decodes member
  obtain ⟨head, tail, held⟩ := holds.cut.holds member
  obtain ⟨second, later, next⟩ := decodes.exists_next there
  have own {l : Located} (there : l ∈ b.code) : l ∈ located := by
    rw [← holds.cut.flatMap_code]
    exact List.mem_flatMap.2 ⟨b, member, there⟩
  rw [held.code, List.tail_cons] at later
  rw [Bool.eq_false_iff]
  intro branch
  have inside := holds.decodes.bounds (own (held.code ▸ List.mem_cons_of_mem _ later))
  exact held.inner second later (next ▸ Block.mem_leaders.2 (.inr (.inl
    ⟨l, own (List.dropLast_subset _ there), branch, .inr ⟨by omega, rfl⟩⟩)))

theorem getElem?_blocks (holds : code.Holds located) {n : Nat} {b : Block} :
    (FlowGraph.ofInstructions signature code pool located clauses).blocks[n]? = some b ↔
      b ∈ code.blocks located ∧ b.start = n := by
  refine Block.getElem?_index (holds.pairwise.imp_of_mem fun {a b} member _ apart same => ?_)
  have := holds.start_lt_stop member
  omega

variable (signature pool clauses) in
theorem exists_block (holds : code.Holds located) {n : Nat} (member : ∃ l ∈ located, l.offset = n)
    (leader : n ∈ Block.leaders located code.handlers code.bytes.length) :
    ∃ b, (FlowGraph.ofInstructions signature code pool located clauses).blocks[n]? = some b := by
  obtain ⟨l, member, rfl⟩ := member
  obtain ⟨b, there, same⟩ := holds.cut.exists_block member (.inl leader)
  exact ⟨b, holds.getElem?_blocks.2 ⟨there, same⟩⟩

theorem isClosed (holds : code.Holds located) (ok : code.handlers.mapM (·.clause pool) = .ok clauses) :
    (FlowGraph.ofInstructions signature code pool located clauses).IsClosed where
  first := holds.exists_block signature pool clauses holds.exists_first (Block.mem_leaders.2 (.inl rfl))
  start n b there := (holds.getElem?_blocks.1 there).2
  nonempty n b there := holds.block_code_ne_nil (holds.getElem?_blocks.1 there).1
  successors n b last targets there last? ok t member := by
    have inBlocks := (holds.getElem?_blocks.1 there).1
    have inCode : last ∈ located := by
      rw [← holds.cut.flatMap_code]
      exact List.mem_flatMap.2 ⟨b, inBlocks, List.mem_of_getLast? last?⟩
    have jumps : ∀ t ∈ last.instruction.targets, ∃ b',
        (FlowGraph.ofInstructions signature code pool located clauses).blocks[t]? = some b' := by
      intro t member
      exact holds.exists_block signature pool clauses (holds.targets last inCode t member)
        (Block.mem_leaders.2 (.inr (.inl ⟨last, inCode, Instruction.isBranch_of_target member,
          .inl member⟩)))
    unfold FlowGraph.successors at ok
    simp only at ok
    split at ok
    next falls =>
      split at ok
      next => cases ok
      next inside =>
        cases ok
        obtain member | member := List.mem_append.1 member
        · exact jumps t member
        · rw [List.mem_singleton.1 member]
          obtain ⟨front, piece, back, _, _, stop, decodes⟩ := holds.block_decodes inBlocks
          have next := decodes.getLast?_next last?
          obtain ends | ⟨other, there, same⟩ := holds.cut.stop_cases inBlocks
          · have : (FlowGraph.ofInstructions signature code pool located clauses).length =
              code.bytes.length := rfl
            omega
          · exact ⟨other, holds.getElem?_blocks.2 ⟨there, by omega⟩⟩
    next =>
      cases ok
      exact jumps t member
  clauses c member := by
    obtain ⟨h, there, ok⟩ := mem_of_mapM_eq_ok ok member
    obtain ⟨type, _, same⟩ := bind_eq_ok.1 ok
    cases same
    exact holds.exists_block signature pool clauses (holds.handlers h there).target
      (Block.mem_leaders.2 (.inr (.inr ⟨h, there, rfl⟩)))

end Code.Holds

end StackMaps
