import StackMaps.Proofs.Rebuild.Paths

/-! The method that is written is well formed, whatever the source of class headers: it reads as
before in the blocks that control gets to, and as a tomb in the others; its handlers pass the checks
that are made of them; control gets to what it got to before; and every handler that is left can be
got to from what it covers. -/

namespace StackMaps

open MonadAttach LawfulMonadAttach

/-- Nothing is done up to the last byte of the block, and there what is on the stack is thrown. -/
def Block.idleCode (b : Block) : List Located :=
  (List.range' b.start (b.stop - 1 - b.start)).map (fun n => ⟨n, n + 1, .straight .nop⟩) ++
    [⟨b.stop - 1, b.stop, .branch .throw⟩]

theorem Block.tombCode_eq (start length : Nat) : tombCode start (length + 1) =
    (List.range' start length).map (fun n => ⟨n, n + 1, .straight .nop⟩) ++
      [⟨start + length, start + length + 1, .branch .throw⟩] := by
  induction length generalizing start with
  | zero => rfl
  | succ length ih =>
    rw [tombCode, ih, List.range'_succ, List.map_cons, List.cons_append, Nat.succ_add_eq_add_succ]

theorem Block.tombCode_eq_idleCode {b : Block} (proper : b.start < b.stop) :
    tombCode b.start (b.stop - b.start) = b.idleCode := by
  obtain ⟨length, stop⟩ := Nat.exists_eq_add_of_lt proper
  rw [idleCode, stop, show b.start + length + 1 - b.start = length + 1 by omega, tombCode_eq,
    show b.start + length + 1 - 1 - b.start = length by omega, Nat.add_sub_cancel]

namespace Analysis

/-- `code'` reads as the instructions `located'`, which are those of `code` in the blocks that have
frames; control gets to the same ones, and from what it gets to, to every handler. -/
structure WellFormed (a : Analysis) (code code' : Code) (located' : List Located) : Prop where
  length : code'.bytes.length = code.bytes.length
  decodes : Instruction.decodeAll code'.bytes = .ok located'
  blocks : located' = a.blocks.flatMap fun b =>
    if (a.entryFrame b).isSome then b.code else b.idleCode
  checked : code'.instructions = .ok located'
  fits : ∀ h ∈ code'.handlers, h.Fits located' code'.bytes.length
  executes : ∀ l, code'.Executes located' l ↔ code.Executes a.code l
  covers : ∀ h ∈ code'.handlers, ∃ l, code'.Executes located' l ∧ h.Covers l.offset
  lands : ∀ h ∈ code'.handlers, ∃ l, code'.Executes located' l ∧ l.offset = h.target.toNat

variable {signature : Signature} {code : Code} {pool : Pool} {a : Analysis} {g : FlowGraph}
  {r : Rebuilt} {l : Located}

namespace Explored

theorem gets_of_outside (explored : a.Explored signature code pool g) (there : l ∈ a.buriedCode)
    (outside : ∀ d ∈ a.deadRanges, d.1 ≤ l.offset → d.2 ≤ l.offset) : a.Gets l := by
  obtain ⟨b, block, ⟨live, own⟩ | ⟨dead, own⟩⟩ := mem_buriedCode there
  · exact ⟨b, block, live, own⟩
  · have tomb : Block.buriedCode a.isDead b = Block.tombCode b.start (b.stop - b.start) :=
      if_pos (isDead_iff.2 dead)
    obtain ⟨head, tail, whole, first, inner⟩ := explored.exists_fills block
    rw [← tomb, whole] at own
    have proper := explored.proper block
    have range := outside _ (mem_deadRanges.2 ⟨b, block, dead, rfl⟩)
    obtain rfl | later := List.mem_cons.1 own
    · have := range (by simp only; omega)
      simp only at this
      omega
    · have inside := inner l later
      have := range (by simp only; omega)
      simp only at this
      omega

theorem exists_covered (explored : a.Explored signature code pool g)
    (ok : a.rebuild code pool = .ok r) {h : Handler} (there : h ∈ r.code.handlers) :
    ∃ l, a.Gets l ∧ h.Covers l.offset := by
  have fits := ((rebuilt_holds_iff ok).2 explored.buried_holds).handlers h there
  rw [rebuilt_handlers ok] at there
  obtain ⟨_, _, piece, _⟩ := explored.mem_buried_handlers there
  have nonempty := fits.nonempty
  obtain ⟨l, own, start⟩ := fits.start
  refine ⟨l, explored.gets_of_outside own fun d dead before => ?_, by omega, by omega⟩
  have apart := piece.apart d dead
  simp only at apart
  omega

theorem buriedCode_eq (explored : a.Explored signature code pool g) : a.buriedCode =
    a.blocks.flatMap fun b => if (a.entryFrame b).isSome then b.code else b.idleCode := by
  refine List.flatMap_congr fun b block => ?_
  rw [Block.buriedCode, Block.tombCode_eq_idleCode (explored.proper block), isDead]
  cases a.entryFrame b <;> rfl

theorem wellFormed (explored : a.Explored signature code pool g) (ok : a.rebuild code pool = .ok r) :
    a.WellFormed code r.code a.buriedCode := by
  have holds := (rebuilt_holds_iff ok).2 explored.buried_holds
  have covered {h : Handler} (there : h ∈ r.code.handlers) :
      ∃ l, r.code.Executes a.buriedCode l ∧ h.Covers l.offset := by
    obtain ⟨l, gets, covers⟩ := explored.exists_covered ok there
    exact ⟨l, (explored.rebuilt_executes_iff ok).2 gets, covers⟩
  refine ⟨explored.length_rebuilt ok,
    Instruction.decodeAll_eq_ok.2 ⟨holds.nonempty, holds.decodes, holds.targets⟩,
    explored.buriedCode_eq, Code.instructions_eq_ok.2 holds, holds.handlers, fun l => ?_,
    fun h there => covered there, fun h there => ?_⟩
  · rw [explored.rebuilt_executes_iff ok, explored.executes_iff]
  · obtain ⟨l, executes, covers⟩ := covered there
    obtain ⟨l', own, target⟩ := (holds.handlers h there).target
    exact ⟨l', .next executes own (.inr (.inr ⟨h, there, covers, target⟩)), target⟩

end Explored

end Analysis

/-- Every method that is rebuilt, over whatever source of class headers, is well formed: what is
reached is there as it was, what is not does nothing, and what is left of the exception table is
of use. -/
theorem rebuild_wellFormed {m : Type → Type} [Monad m] [LawfulMonad m] [MonadAttach m]
    [LawfulMonadAttach m] {s : HeaderSource m} {signature : Signature} {code : Code} {pool : Pool}
    {r : Rebuilt} (returns : CanReturn (rebuild s signature code pool) r) :
    ∃ a located', CanReturn (Analysis.run s signature code pool) a ∧
      Instruction.decodeAll code.bytes = .ok a.code ∧ a.code = a.blocks.flatMap (·.code) ∧
      (∀ l, code.Executes a.code l ↔ ∃ b ∈ a.blocks, (∃ f, a.entryFrame b = some f) ∧ l ∈ b.code) ∧
      a.WellFormed code r.code located' := by
  rw [rebuild] at returns
  obtain ⟨a, run, returns⟩ := canReturn_bind_imp' returns
  have ok := eq_of_canReturn_ofExcept returns
  obtain ⟨g, st, found⟩ := Analysis.foundBy_of_run run
  have explored := found.explored
  refine ⟨a, a.buriedCode, run, ?_, ?_, fun l => explored.executes_iff, explored.wellFormed ok⟩
  · exact Instruction.decodeAll_eq_ok.2
      ⟨explored.holds.nonempty, explored.holds.decodes, explored.holds.targets⟩
  · rw [explored.blocks, explored.holds.cut.flatMap_code]

theorem rebuild_wellFormed_skip : ∃ r a located',
    CanReturn (rebuild (ClassGraph.standard.source FixedLoader.empty.loader) skipSignature skipCode
      .empty) r ∧
    r.code.bytes = [0xa7, 0, 5, 0x00, 0xbf, 0x2a, 0x57, 0xb1, 0x57, 0xb1] ∧
    r.code.handlers = [⟨5, 7, 8, none⟩] ∧
    CanReturn (Analysis.run (ClassGraph.standard.source FixedLoader.empty.loader) skipSignature
      skipCode .empty) a ∧
    a.WellFormed skipCode r.code located' := by
  let rebuilt := (rebuild (ClassGraph.standard.source FixedLoader.empty.loader) skipSignature
    skipCode .empty).run.run ClassGraph.standard
  have facts : rebuilt.1.toOption.map (fun r => (r.code.bytes, r.code.handlers)) =
      some ([0xa7, 0, 5, 0x00, 0xbf, 0x2a, 0x57, 0xb1, 0x57, 0xb1], [⟨5, 7, 8, none⟩]) := by
    decide +kernel
  obtain ⟨r, ok, facts⟩ := Option.map_eq_some_iff.1 facts
  have ok : rebuilt.1 = .ok r := toOption_eq_some.1 ok
  obtain ⟨bytes, handlers⟩ := Prod.mk.inj facts
  have returns : CanReturn (rebuild (ClassGraph.standard.source FixedLoader.empty.loader)
      skipSignature skipCode .empty) r := ⟨ClassGraph.standard, rebuilt.2, Prod.ext ok rfl⟩
  obtain ⟨a, located', run, _, _, _, wellFormed⟩ := rebuild_wellFormed returns
  exact ⟨r, a, located', returns, bytes, handlers, run, wellFormed⟩

end StackMaps
