import Mathlib.Data.List.Pairwise
import StackMaps.Proofs.Flow.Entered

/-! What is known of a method once it was analyzed, over any source of class headers: its blocks are
the pieces that its instructions are cut into, and those with a frame are those that control gets
to. -/

namespace StackMaps.Analysis

variable {H : Hierarchy} {visits : Nat} {signature : Signature} {code : Code} {pool : Pool}
  {a : Analysis} {g : FlowGraph} {st : FlowState} {b : Block} {l : Located} {n : Nat}

/-- The instructions and blocks of a method, of which those that control gets to have frames. -/
structure Explored (signature : Signature) (code : Code) (pool : Pool) (a : Analysis)
    (g : FlowGraph) : Prop where
  holds : code.Holds a.code
  clauses : code.handlers.mapM (·.clause pool) = .ok g.clauses
  graph : g = .ofInstructions signature code pool a.code g.clauses
  blocks : a.blocks = code.blocks a.code
  entry_iff : ∀ n : Nat, (∃ f, a.entry[n]? = some f) ↔ g.Reaches n

theorem FoundBy.explored {m : Type → Type} [Monad m] [LawfulMonad m] [MonadAttach m]
    [LawfulMonadAttach m] {s : HeaderSource m} (found : a.FoundBy s signature code pool g st) :
    a.Explored signature code pool g :=
  ⟨found.holds, found.clauses, found.graph, found.blocks, fun _ => found.entry_iff⟩

theorem Found.explored (found : a.Found H visits signature code pool g st) :
    a.Explored signature code pool g := by
  obtain ⟨meets, settled⟩ := FlowGraph.settle_moves (s := H.source) found.settled
  have foundBy : a.FoundBy H.source signature code pool g st := ⟨found.holds, found.clauses,
    found.graph, found.initial, meets, settled, found.blocks, found.entry, found.maxStack⟩
  exact foundBy.explored

namespace Explored

theorem proper (explored : a.Explored signature code pool g) {b : Block} (block : b ∈ a.blocks) :
    b.start < b.stop :=
  explored.holds.start_lt_stop (explored.blocks ▸ block)

theorem held (explored : a.Explored signature code pool g) {b : Block} (block : b ∈ a.blocks) :
    ∃ head tail, b.Holds (Block.leaders a.code code.handlers code.bytes.length) head tail :=
  explored.holds.cut.holds (explored.blocks ▸ block)

theorem pieces (explored : a.Explored signature code pool g) :
    Block.Pieces code.bytes.length 0 code.bytes a.blocks :=
  explored.blocks ▸ explored.holds.pieces

theorem decodes (explored : a.Explored signature code pool g) {b : Block}
    (block : b ∈ a.blocks) : ∃ piece, b.stop = b.start + piece.length ∧ b.stop ≤ code.bytes.length ∧
      Decodes code.bytes.length b.start piece b.code := by
  obtain ⟨front, piece, back, whole, start, stop, decodes⟩ :=
    explored.holds.block_decodes (explored.blocks ▸ block)
  refine ⟨piece, stop, ?_, decodes⟩
  rw [whole]
  simp only [List.length_append]
  omega

theorem last_next (explored : a.Explored signature code pool g) {b : Block}
    (block : b ∈ a.blocks) {last : Located} (last? : b.code.getLast? = some last) :
    last.next = b.stop := by
  obtain ⟨piece, stop, _, decodes⟩ := explored.decodes block
  rw [stop, decodes.getLast?_next last?]

theorem starts (explored : a.Explored signature code pool g) :
    a.blocks.Pairwise (fun b b' => b.start < b'.start) ∧
      ∀ b ∈ a.blocks, b.start < code.bytes.length := by
  rw [explored.blocks]
  refine ⟨explored.holds.pairwise.imp_of_mem fun there _ apart => ?_, fun b there => ?_⟩
  · exact Nat.lt_of_lt_of_le (explored.holds.start_lt_stop there) apart
  · rw [← explored.blocks] at there
    obtain ⟨_, _, inside, _⟩ := explored.decodes there
    exact Nat.lt_of_lt_of_le (explored.proper there) inside

theorem block_unique (explored : a.Explored signature code pool g) {b b' : Block}
    (block : b ∈ a.blocks) (block' : b' ∈ a.blocks) {offset : Nat}
    (inside : b.start ≤ offset ∧ offset < b.stop) (inside' : b'.start ≤ offset ∧ offset < b'.stop) :
    b = b' := by
  have apart : a.blocks.Pairwise fun b b' => b.stop ≤ b'.start ∨ b'.stop ≤ b.start := by
    rw [explored.blocks]
    exact explored.holds.pairwise.imp .inl
  have symmetric : Std.Symm fun b b' : Block => b.stop ≤ b'.start ∨ b'.stop ≤ b.start :=
    ⟨fun _ _ => Or.symm⟩
  by_contra differ
  have := apart.forall block block' differ
  omega

theorem start_unique (explored : a.Explored signature code pool g) {b' : Block}
    (block : b ∈ a.blocks) (block' : b' ∈ a.blocks) (same : b.start = b'.start) : b = b' := by
  exact explored.block_unique block block' ⟨Nat.le_refl _, explored.proper block⟩
    ⟨Nat.le_of_eq same.symm, same ▸ explored.proper block'⟩

theorem bounds (explored : a.Explored signature code pool g) (block : b ∈ a.blocks)
    (there : l ∈ b.code) : l ∈ a.code ∧ b.start ≤ l.offset ∧ l.offset < l.next ∧ l.next ≤ b.stop := by
  obtain ⟨piece, stop, _, decodes⟩ := explored.decodes block
  have inside := decodes.bounds there
  refine ⟨?_, inside.1, inside.2.1, by omega⟩
  rw [← explored.holds.cut.flatMap_code, ← explored.blocks]
  exact List.mem_flatMap.2 ⟨b, block, there⟩

theorem exists_head (explored : a.Explored signature code pool g) (block : b ∈ a.blocks) :
    ∃ l ∈ b.code, l ∈ a.code ∧ l.offset = b.start := by
  obtain ⟨head, tail, held⟩ := explored.held block
  have own : head ∈ b.code := held.code ▸ List.mem_cons_self
  exact ⟨head, own, (explored.bounds block own).1, held.start.symm⟩

theorem start_lt_of_mem_tail (explored : a.Explored signature code pool g)
    (block : b ∈ a.blocks) {l : Located} (inner : l ∈ b.code.tail) : b.start < l.offset := by
  obtain ⟨_, _, _, decodes⟩ := explored.decodes block
  obtain ⟨head, tail, held⟩ := explored.held block
  rw [held.code] at decodes inner
  have after := (List.pairwise_cons.1 decodes.pairwise).1 l inner
  have first := decodes.bounds List.mem_cons_self
  omega

theorem straight (explored : a.Explored signature code pool g) (block : b ∈ a.blocks)
    {l : Located} (there : l ∈ b.code.dropLast) : l.instruction.isBranch = false :=
  explored.holds.straight (explored.blocks ▸ block) there

theorem getLast?_of_branch (explored : a.Explored signature code pool g) (block : b ∈ a.blocks)
    {l : Located} (there : l ∈ b.code) (branch : l.instruction.isBranch = true) :
    b.code.getLast? = some l := by
  by_contra other
  have early := List.mem_dropLast_of_mem_of_ne_getLast? there fun same => other same.symm
  rw [explored.straight block early] at branch
  cases branch

theorem getElem?_blocks (explored : a.Explored signature code pool g) :
    g.blocks[n]? = some b ↔ b ∈ a.blocks ∧ b.start = n := by
  rw [explored.graph, explored.blocks]
  exact explored.holds.getElem?_blocks

theorem entry_of_leads (explored : a.Explored signature code pool g)
    (live : ∃ f, a.entryFrame b = some f) (leads : g.Leads b.start n) : ∃ f, a.entry[n]? = some f := by
  exact (explored.entry_iff n).2 (((explored.entry_iff b.start).1 live).tail leads)

theorem exists_block (explored : a.Explored signature code pool g)
    (entry : ∃ f, a.entry[n]? = some f) (there : l ∈ a.code) (place : l.offset = n) :
    ∃ b ∈ a.blocks, b.start = n := by
  subst place
  have atLeader (leader : l.offset ∈ Block.leaders a.code code.handlers code.bytes.length) :
      ∃ b ∈ a.blocks, b.start = l.offset := by
    rw [explored.blocks]
    exact explored.holds.cut.exists_block there (.inl leader)
  obtain first | ⟨k, _, p, indexed, way⟩ := ((explored.entry_iff _).1 entry).cases_tail
  · exact atLeader (Block.mem_leaders.2 (.inl first))
  obtain ⟨block, rfl⟩ := explored.getElem?_blocks.1 indexed
  obtain ⟨last, last?, jumps | ⟨_, next⟩⟩ | ⟨_, _, c, clause, _, target⟩ := way
  · have own := (explored.bounds block (List.mem_of_getLast? last?)).1
    exact atLeader (Block.mem_leaders.2
      (.inr (.inl ⟨last, own, Instruction.isBranch_of_target jumps, .inl jumps⟩)))
  · have ends := explored.last_next block last?
    have inside := explored.holds.decodes.bounds there
    rw [explored.blocks] at block ⊢
    obtain stops | ⟨other, next', starts⟩ := explored.holds.cut.stop_cases block
    · omega
    · exact ⟨other, next', by omega⟩
  · obtain ⟨h, member, ok⟩ := mem_of_mapM_eq_ok explored.clauses clause
    obtain ⟨type, _, same⟩ := bind_eq_ok.1 ok
    cases same
    exact atLeader (Block.mem_leaders.2 (.inr (.inr ⟨h, member, target⟩)))

end Explored

end StackMaps.Analysis
