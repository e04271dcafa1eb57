import StackMaps.Proofs.Flow.Resplit
import StackMaps.Proofs.Rebuild.Checks

/-! The blocks of the method that is written. Overwriting code takes away the places where frames had
to be written down because of that code; as long as no live block starts at such a place, the method
is split into the same blocks as before. -/

namespace StackMaps.Analysis

variable {H : Hierarchy} {visits : Nat} {signature : Signature} {code : Code} {pool : Pool}
  {a : Analysis} {g : FlowGraph} {st : FlowState} {r : Rebuilt} {b : Block} {n : Nat}

def newLeaders (a : Analysis) (r : Rebuilt) : Std.TreeSet Nat :=
  Block.leaders a.buriedCode r.code.handlers r.code.bytes.length

def newTargets (a : Analysis) (r : Rebuilt) : Std.TreeSet Nat :=
  Block.frameTargets a.buriedCode r.code.handlers r.code.bytes.length

/-- Where the new table has a frame of live code, the method that is written needs one too. -/
def KeepsTargets (a : Analysis) (r : Rebuilt) : Prop :=
  ∀ b ∈ a.blocks, (∃ f, a.entryFrame b = some f) → b.start ∈ a.frameTargets → b.start ∈ a.newTargets r

theorem newTargets_subset (target : n ∈ a.newTargets r) : n ∈ a.newLeaders r := by
  refine Block.mem_leaders.2 (.inr ?_)
  refine (Block.mem_frameTargets.1 target).imp_left ?_
  rintro ⟨l, there, branch, jumps | ⟨inside, _, same⟩⟩
  · exact ⟨l, there, branch, .inl jumps⟩
  · exact ⟨l, there, branch, .inr ⟨inside, same⟩⟩

theorem Explored.exists_fills (explored : a.Explored signature code pool g) (block : b ∈ a.blocks) :
    ∃ head tail, Block.buriedCode a.isDead b = head :: tail ∧ head.offset = b.start ∧
      ∀ l ∈ tail, b.start < l.offset ∧ l.offset < b.stop := by
  have proper := explored.proper block
  rw [Block.buriedCode]
  split
  · obtain ⟨length, size⟩ : ∃ length, b.stop - b.start = length + 1 :=
      ⟨b.stop - b.start - 1, by omega⟩
    obtain ⟨head, tail, same, first, inner⟩ := Block.tombCode_eq_cons b.start length
    refine ⟨head, tail, by rw [size, same], first, fun l there => ?_⟩
    have := inner l there
    omega
  · obtain ⟨head, tail, held⟩ := explored.held block
    refine ⟨head, tail, held.code, held.start.symm, fun l there => ?_⟩
    have tail : l ∈ b.code.tail := held.code ▸ there
    have bounds := explored.bounds block (List.mem_of_mem_tail tail)
    have later := explored.start_lt_of_mem_tail block tail
    omega

namespace Found

theorem exists_start (found : a.Found H visits signature code pool g st)
    (ok : a.rebuild code pool = .ok r) (leader : n ∈ a.newLeaders r) : ∃ b ∈ a.blocks, b.start = n := by
  have old (member : ∃ l ∈ a.code, l.offset = n)
      (leader : n ∈ Block.leaders a.code code.handlers code.bytes.length) :
      ∃ b ∈ a.blocks, b.start = n := by
    obtain ⟨l, there, rfl⟩ := member
    rw [found.blocks]
    exact found.holds.cut.exists_block there (.inl leader)
  rw [newLeaders, rebuilt_handlers ok, found.explored.length_rebuilt ok] at leader
  obtain rfl | ⟨l, there, branch, way⟩ | ⟨h', there, same⟩ := Block.mem_leaders.1 leader
  · obtain ⟨b, first⟩ := (FlowGraph.isClosed_of_ofCode found.ofCode).first
    exact ⟨b, found.explored.getElem?_blocks.1 first⟩
  · obtain ⟨b, block, ⟨_, own⟩ | ⟨_, own⟩⟩ := mem_buriedCode there
    · have member := (found.explored.bounds block own).1
      obtain jumps | ⟨inside, rfl⟩ := way
      · exact old (found.holds.targets l member n jumps)
          (Block.mem_leaders.2 (.inr (.inl ⟨l, member, branch, .inl jumps⟩)))
      · exact old (found.holds.decodes.next_start member (by omega))
          (Block.mem_leaders.2 (.inr (.inl ⟨l, member, branch, .inr ⟨inside, rfl⟩⟩)))
    · obtain same | ⟨same, ends⟩ := Block.mem_tombCode own
      · rw [same] at branch
        cases branch
      · obtain jumps | ⟨inside, rfl⟩ := way
        · rw [same] at jumps
          cases jumps
        · have proper := found.explored.proper block
          rw [found.blocks] at block ⊢
          obtain stops | ⟨other, there, start⟩ := found.holds.cut.stop_cases block
          · omega
          · exact ⟨other, there, by omega⟩
  · obtain ⟨h, member, _, target, _⟩ := found.explored.mem_buried_handlers there
    rw [target] at same
    subst same
    exact old (found.holds.handlers h member).target
      (Block.mem_leaders.2 (.inr (.inr ⟨h, member, rfl⟩)))

theorem target_of_straight (found : a.Found H visits signature code pool g st) {p : Block}
    (before : p ∈ a.blocks) (stops : p.stop = n) {last : Located} (last? : p.code.getLast? = some last)
    (straight : last.instruction.isBranch = false)
    (leader : n ∈ Block.leaders a.code code.handlers code.bytes.length) : n ∈ a.frameTargets := by
  have proper := found.explored.proper before
  obtain rfl | ⟨l, there, branch, jumps | ⟨_, same⟩⟩ | ⟨h, there, rfl⟩ := Block.mem_leaders.1 leader
  · omega
  · exact found.target_mem there jumps
  · -- The branch would be the last instruction of the block before.
    rw [← found.holds.cut.flatMap_code] at there
    obtain ⟨p', before', own⟩ := List.mem_flatMap.1 there
    rw [← found.blocks] at before'
    have bounds := found.explored.bounds before' own
    have inside : p'.start ≤ n - 1 ∧ n - 1 < p'.stop := by omega
    obtain rfl := found.explored.block_unique before' before inside (by omega)
    cases last?.symm.trans (found.explored.getLast?_of_branch before own branch)
    rw [straight] at branch
    cases branch
  · rw [found.frameTargets]
    exact Block.mem_frameTargets.2 (.inr ⟨h, there, rfl⟩)

theorem start_mem_newLeaders (found : a.Found H visits signature code pool g st)
    (ok : a.rebuild code pool = .ok r) (keeps : a.KeepsTargets r)
    (block : b ∈ a.blocks) : b.start ∈ a.newLeaders r := by
  have inside := found.explored.starts.2 b block
  obtain ⟨head, first, start⟩ | ⟨leader, p, before, stops⟩ :=
    found.holds.cut.start_cases (found.blocks ▸ block)
  · obtain ⟨rest, whole⟩ := List.head?_eq_some_iff.1 first
    have decodes := found.holds.decodes
    rw [whole] at decodes
    rw [start, decodes.offset_eq]
    exact Block.mem_leaders.2 (.inl rfl)
  rw [← found.blocks] at before
  have proper := found.explored.proper before
  have next {l : Located} (there : l ∈ a.buriedCode) (branch : l.instruction.isBranch = true)
      (ends : l.next = p.stop) : b.start ∈ a.newLeaders r := by
    refine Block.mem_leaders.2 (.inr (.inl ⟨l, there, branch, .inr ⟨?_, by omega⟩⟩))
    rw [found.explored.length_rebuilt ok]
    omega
  cases entry : a.entryFrame p with
  | none =>
    obtain ⟨length, size⟩ : ∃ length, p.stop - p.start = length + 1 :=
      ⟨p.stop - p.start - 1, by omega⟩
    obtain ⟨l, own, same, ends⟩ := Block.exists_throw p.start length
    refine next (List.mem_flatMap.2 ⟨p, before, ?_⟩) (by rw [same]; rfl) (by omega)
    rwa [Block.buriedCode, isDead_iff.2 entry, if_pos rfl, size]
  | some f =>
    obtain ⟨last, last?⟩ : ∃ last, p.code.getLast? = some last :=
      Option.isSome_iff_exists.1 (by simpa using found.holds.block_code_ne_nil (found.blocks ▸ before))
    have ends := found.explored.last_next before last?
    cases branch : last.instruction.isBranch with
    | true => exact next (live_mem_buriedCode before entry (List.mem_of_getLast? last?)) branch ends
    | false =>
      have target := found.target_of_straight before stops last? branch leader
      have falls : last.instruction.fallsThrough = true := by
        cases same : last.instruction with
        | straight => rfl
        | branch => simp [same, Instruction.isBranch] at branch
      have live : ∃ f, a.entry[b.start]? = some f := found.explored.entry_of_leads ⟨f, entry⟩
        ⟨p, found.explored.getElem?_blocks.2 ⟨before, rfl⟩, .inl ⟨last, last?, .inr ⟨falls, by omega⟩⟩⟩
      exact newTargets_subset (keeps b block live target)

theorem blocks_rebuilt (found : a.Found H visits signature code pool g st)
    (ok : a.rebuild code pool = .ok r) (keeps : a.KeepsTargets r) :
    List.Forall₂ (fun b b' => Block.Takes b (Block.buriedCode a.isDead b) b') a.blocks
      (r.code.blocks a.buriedCode) := by
  have cut := found.holds.cut
  rw [← found.blocks, ← found.explored.length_rebuilt ok] at cut
  refine cut.split_fills (fun b block => ?_) fun b block =>
    found.start_mem_newLeaders ok keeps block
  obtain ⟨head, tail, same, first, inside⟩ := found.explored.exists_fills block
  refine ⟨head, tail, same, first, fun l there leader => ?_⟩
  obtain ⟨b', block', start⟩ := found.exists_start ok leader
  have bounds := inside l there
  have proper := found.explored.proper block'
  have same := found.explored.block_unique block block' (by omega) ⟨by omega, start ▸ proper⟩
  subst same
  omega

/-- Where the method that is written needs a frame of live code, the new table has one. -/
theorem mem_frameTargets_of_new (found : a.Found H visits signature code pool g st)
    (rooted : H.IsRooted) (ok : a.rebuild code pool = .ok r)
    (live : ∃ f, a.entry[n]? = some f) (target : n ∈ a.newTargets r) : n ∈ a.frameTargets := by
  rw [newTargets, rebuilt_handlers ok, found.explored.length_rebuilt ok] at target
  obtain ⟨l, there, branch, way⟩ | ⟨h', there, same⟩ := Block.mem_frameTargets.1 target
  · obtain ⟨b, block, ⟨_, own⟩ | ⟨dead, own⟩⟩ := mem_buriedCode there
    · rw [found.frameTargets]
      exact Block.mem_frameTargets.2 (.inl ⟨l, (found.explored.bounds block own).1, branch, way⟩)
    · obtain same | ⟨same, ends⟩ := Block.mem_tombCode own
      · rw [same] at branch
        cases branch
      · obtain jumps | ⟨_, _, rfl⟩ := way
        · rw [same] at jumps
          cases jumps
        · have proper := found.explored.proper block
          obtain ⟨f, entry⟩ := live
          have stops : b.stop = l.next := by omega
          rw [← stops] at entry ⊢
          refine (found.waits rooted block fun _ _ some => ?_).resolve_right fun none => ?_
          · cases dead.symm.trans some
          · cases none.symm.trans entry
  · obtain ⟨h, member, _, target, _⟩ := found.explored.mem_buried_handlers there
    rw [target] at same
    rw [found.frameTargets]
    exact Block.mem_frameTargets.2 (.inr ⟨h, member, same⟩)

end Found

end StackMaps.Analysis
