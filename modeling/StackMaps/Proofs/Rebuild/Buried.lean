import StackMaps.Proofs.Rebuild.Table
import StackMaps.Proofs.Rebuild.Trimmed

/-! The method that is written instead of the one that was read: its code decodes to the same
instructions where control gets to, it has an instruction wherever there was one before, and its
handlers fit. -/

namespace StackMaps

namespace Block

/-- The instructions of a tomb of so many bytes. -/
def tombCode (start : Nat) : (length : Nat) → List Located
  | 0 => []
  | 1 => [⟨start, start + 1, .branch .throw⟩]
  | length + 2 => ⟨start, start + 1, .straight .nop⟩ :: tombCode (start + 1) (length + 1)

/-- The instructions of a block that is overwritten if it is dead. -/
def buriedCode (isDead : Block → Bool) (b : Block) : List Located :=
  if isDead b then tombCode b.start (b.stop - b.start) else b.code

variable {total start length offset : Nat}

theorem length_tomb (length : Nat) : (tomb (length + 1)).length = length + 1 := by
  simp [tomb]

theorem tomb_decodes : Decodes total start (tomb (length + 1)) (tombCode start (length + 1)) := by
  induction length generalizing start with
  | zero => exact .cons (List.cons_ne_nil 0xbf []) (fun _ => rfl) (.nil _)
  | succ length ih => exact .cons (List.cons_ne_nil 0x00 []) (fun _ => rfl) ih

theorem mem_tombCode {l : Located} (there : l ∈ tombCode start length) :
    l.instruction = .straight .nop ∨ l.instruction = .branch .throw ∧ l.next = start + length := by
  fun_induction tombCode start length with
  | case1 => cases there
  | case2 start =>
    cases List.mem_singleton.1 there
    exact .inr ⟨rfl, rfl⟩
  | case3 start length ih =>
    obtain rfl | there := List.mem_cons.1 there
    · exact .inl rfl
    · refine (ih there).imp_right fun ⟨throws, ends⟩ => ⟨throws, by omega⟩

theorem exists_throw (start length : Nat) : ∃ l ∈ tombCode start (length + 1),
    l.instruction = .branch .throw ∧ l.next = start + (length + 1) := by
  induction length generalizing start with
  | zero => exact ⟨_, List.mem_singleton_self _, rfl, rfl⟩
  | succ length ih =>
    obtain ⟨l, there, throws, ends⟩ := ih (start + 1)
    exact ⟨l, List.mem_cons_of_mem _ there, throws, by omega⟩

theorem tombCode_eq_cons (start length : Nat) : ∃ head tail,
    tombCode start (length + 1) = head :: tail ∧ head.offset = start ∧
      ∀ l ∈ tail, start < l.offset ∧ l.offset < start + (length + 1) := by
  induction length generalizing start with
  | zero => exact ⟨_, [], rfl, rfl, nofun⟩
  | succ length ih =>
    obtain ⟨head, tail, same, first, inner⟩ := ih (start + 1)
    refine ⟨_, _, rfl, rfl, fun l there => ?_⟩
    rw [same] at there
    obtain rfl | there := List.mem_cons.1 there
    · omega
    · have := inner l there
      omega

theorem exists_tombCode {offset : Nat} (first : start ≤ offset) (last : offset < start + length) :
    ∃ l ∈ tombCode start length, l.offset = offset := by
  fun_induction tombCode start length with
  | case1 => omega
  | case2 start => exact ⟨_, List.mem_singleton_self _, by simp only; omega⟩
  | case3 start length ih =>
    obtain rfl | beyond := Nat.eq_or_lt_of_le first
    · exact ⟨_, List.mem_cons_self, rfl⟩
    · obtain ⟨l, there, same⟩ := ih beyond (by omega)
      exact ⟨l, List.mem_cons_of_mem _ there, same⟩

def buriedPiece (isDead : Block → Bool) (b : Block) (front : List UInt8) : List UInt8 :=
  if isDead b then tomb (b.stop - b.start) else front

theorem length_buriedPiece (isDead : Block → Bool) {b : Block} {front : List UInt8} (start : b.start = offset)
    (stop : b.stop = offset + front.length) (nonempty : front ≠ []) :
    (buriedPiece isDead b front).length = front.length := by
  have length : b.stop - b.start = front.length := by omega
  obtain ⟨n, count⟩ := Nat.exists_eq_succ_of_ne_zero (mt List.length_eq_zero_iff.1 nonempty)
  unfold buriedPiece
  split
  · rw [length, count, length_tomb]
  · rfl

theorem decodes_buriedPiece (isDead : Block → Bool) {b : Block} {front : List UInt8}
    (start : b.start = offset) (stop : b.stop = offset + front.length) (nonempty : front ≠ [])
    (own : Decodes total offset front b.code) :
    Decodes total offset (buriedPiece isDead b front) (buriedCode isDead b) := by
  have length : b.stop - b.start = front.length := by omega
  obtain ⟨n, count⟩ := Nat.exists_eq_succ_of_ne_zero (mt List.length_eq_zero_iff.1 nonempty)
  unfold buriedPiece buriedCode
  split
  · rw [length, count, start]
    exact tomb_decodes
  · exact own

theorem buryOnto_eq (isDead : Block → Bool) (done : List (List UInt8)) (blocks : List Block)
    (bytes : List UInt8) :
    buryOnto isDead done blocks bytes = done.reverse.flatten ++ buryOnto isDead [] blocks bytes := by
  induction blocks generalizing done bytes with
  | nil => simp [buryOnto]
  | cons b blocks ih =>
    simp only [buryOnto]
    rw [ih, ih [_]]
    simp

theorem bury_cons (isDead : Block → Bool) {b : Block} {front : List UInt8} (blocks : List Block)
    (back : List UInt8) (start : b.start = offset) (stop : b.stop = offset + front.length) :
    buryOnto isDead [] (b :: blocks) (front ++ back) =
      buriedPiece isDead b front ++ buryOnto isDead [] blocks back := by
  have length : b.stop - b.start = front.length := by omega
  simp only [buryOnto, buriedPiece, length, List.take_left, List.drop_left]
  rw [buryOnto_eq]
  simp

namespace Pieces

variable {bytes : List UInt8} {blocks : List Block}

theorem length_bury (pieces : Pieces total offset bytes blocks) (isDead : Block → Bool) :
    (buryOnto isDead [] blocks bytes).length = bytes.length := by
  induction pieces with
  | nil => rfl
  | cons start stop nonempty _ _ ih =>
    rw [bury_cons isDead _ _ start stop, List.length_append, List.length_append, ih,
      length_buriedPiece isDead start stop nonempty]

theorem bury_decodes (pieces : Pieces total offset bytes blocks) (isDead : Block → Bool) :
    Decodes total offset (buryOnto isDead [] blocks bytes) (blocks.flatMap (buriedCode isDead)) := by
  induction pieces with
  | nil => exact .nil _
  | cons start stop nonempty own _ ih =>
    rw [bury_cons isDead _ _ start stop, List.flatMap_cons]
    refine (decodes_buriedPiece isDead start stop nonempty own).append ?_
    rwa [length_buriedPiece isDead start stop nonempty]

theorem bury_bury (pieces : Pieces total offset bytes blocks) {isDead isDead' : Block → Bool}
    {blocks' : List Block} (same : List.Forall₂ (fun b b' =>
      isDead' b' = isDead b ∧ b'.start = b.start ∧ b'.stop = b.stop) blocks blocks') :
    buryOnto isDead' [] blocks' (buryOnto isDead [] blocks bytes) = buryOnto isDead [] blocks bytes := by
  induction pieces generalizing blocks' with
  | nil =>
    cases same
    rfl
  | @cons b _ front back blocks start stop nonempty _ _ ih =>
    obtain _ | @⟨_, b', _, _, ⟨dead, start', stop'⟩, same⟩ := same
    have size := length_buriedPiece isDead start stop nonempty
    have twice : buriedPiece isDead' b' (buriedPiece isDead b front) = buriedPiece isDead b front := by
      unfold buriedPiece
      rw [dead, start', stop']
      split <;> rfl
    rw [bury_cons isDead _ _ start stop,
      bury_cons isDead' _ _ (start'.trans start) (by rw [stop', stop, size]), twice, ih same]

end Pieces

end Block

namespace Analysis

variable {signature : Signature} {code : Code} {pool : Pool} {a : Analysis} {g : FlowGraph}
  {b : Block} {l : Located}

def buriedCode (a : Analysis) : List Located := a.blocks.flatMap (Block.buriedCode a.isDead)

def deadRanges (a : Analysis) : List (Nat × Nat) := a.deadBlocks.map fun b => (b.start, b.stop)

theorem mem_deadRanges {d : Nat × Nat} :
    d ∈ a.deadRanges ↔ ∃ b ∈ a.blocks, a.entryFrame b = none ∧ (b.start, b.stop) = d := by
  simp only [deadRanges, deadBlocks, List.mem_map, List.mem_filter, Option.isNone_iff_eq_none,
    and_assoc]

theorem isDead_iff : a.isDead b = true ↔ a.entryFrame b = none := Option.isNone_iff_eq_none

theorem mem_buriedCode (there : l ∈ a.buriedCode) : ∃ b ∈ a.blocks,
    (∃ f, a.entryFrame b = some f) ∧ l ∈ b.code ∨
      a.entryFrame b = none ∧ l ∈ Block.tombCode b.start (b.stop - b.start) := by
  obtain ⟨b, block, there⟩ := List.mem_flatMap.1 there
  refine ⟨b, block, ?_⟩
  rw [Block.buriedCode] at there
  split at there
  next dead => exact .inr ⟨isDead_iff.1 dead, there⟩
  next live => exact .inl ⟨Option.ne_none_iff_exists'.1 (mt isDead_iff.2 live), there⟩

theorem live_mem_buriedCode {f : Frame} (block : b ∈ a.blocks) (live : a.entryFrame b = some f)
    (there : l ∈ b.code) : l ∈ a.buriedCode := by
  refine List.mem_flatMap.2 ⟨b, block, ?_⟩
  rwa [Block.buriedCode, isDead, live]

namespace Explored

theorem deadRanges_sorted (explored : a.Explored signature code pool g) :
    a.deadRanges.Pairwise fun d d' => d.2 ≤ d'.1 := by
  rw [deadRanges, List.pairwise_map, deadBlocks, explored.blocks]
  exact explored.holds.pairwise.filter _

theorem deadRanges_proper (explored : a.Explored signature code pool g) :
    ∀ d ∈ a.deadRanges, d.1 < d.2 := by
  intro d there
  obtain ⟨b, block, _, rfl⟩ := mem_deadRanges.1 there
  exact explored.proper block

theorem not_mem_deadRanges (explored : a.Explored signature code pool g) (block : b ∈ a.blocks)
    {f : Frame} (live : a.entryFrame b = some f) (there : l ∈ b.code) :
    ∀ d ∈ a.deadRanges, ¬ (d.1 ≤ l.offset ∧ l.offset < d.2) := by
  intro d range inside
  obtain ⟨other, member, dead, rfl⟩ := mem_deadRanges.1 range
  have bounds := (explored.bounds block there).2
  cases explored.block_unique block member ⟨bounds.1, by omega⟩ inside
  cases dead.symm.trans live

theorem exists_buried (explored : a.Explored signature code pool g) (there : l ∈ a.code) :
    ∃ l' ∈ a.buriedCode, l'.offset = l.offset := by
  rw [← explored.holds.cut.flatMap_code] at there
  obtain ⟨b, block, there⟩ := List.mem_flatMap.1 there
  rw [← explored.blocks] at block
  obtain ⟨_, first, last, stop⟩ := explored.bounds block there
  cases entry : a.entryFrame b with
  | some f => exact ⟨l, live_mem_buriedCode block entry there, rfl⟩
  | none =>
    have inside : l.offset < b.start + (b.stop - b.start) := by omega
    obtain ⟨l', member, same⟩ := Block.exists_tombCode first inside
    refine ⟨l', List.mem_flatMap.2 ⟨b, block, ?_⟩, same⟩
    rwa [Block.buriedCode, isDead_iff.2 entry]

theorem mem_buried_handlers (explored : a.Explored signature code pool g) {h' : Handler}
    (there : h' ∈ (a.buried code).handlers) : ∃ h ∈ code.handlers,
      Handler.Piece h.start.toNat h.stop.toNat a.deadRanges (h'.start.toNat, h'.stop.toNat) ∧
        h'.target = h.target ∧ h'.catchType = h.catchType := by
  obtain ⟨h, old, there⟩ := List.mem_flatMap.1 there
  exact ⟨h, old, Handler.mem_trim explored.deadRanges_sorted explored.deadRanges_proper there⟩

/-- The code that is written decodes to the code of live blocks and to tombs. -/
theorem buried_holds (explored : a.Explored signature code pool g) :
    (a.buried code).Holds a.buriedCode := by
  have length : (a.buried code).bytes.length = code.bytes.length := explored.pieces.length_bury a.isDead
  constructor
  · rw [← List.length_pos_iff, length, List.length_pos_iff]
    exact explored.holds.nonempty
  · rw [length]
    exact explored.pieces.bury_decodes a.isDead
  · intro l there target jumps
    obtain ⟨b, block, ⟨_, own⟩ | ⟨_, own⟩⟩ := mem_buriedCode there
    · obtain ⟨old, there, rfl⟩ := explored.holds.targets l (explored.bounds block own).1 target jumps
      exact explored.exists_buried there
    · obtain same | ⟨same, _⟩ := Block.mem_tombCode own <;> rw [same] at jumps <;> cases jumps
  · intro h' there
    rw [length]
    obtain ⟨h, old, piece, target, _⟩ := explored.mem_buried_handlers there
    have fits := explored.holds.handlers h old
    have nonempty := piece.nonempty
    have le_stop := piece.le_stop
    have stop_le := fits.stop_le
    simp only at nonempty le_stop
    have kept {n : Nat} (old : ∃ l ∈ a.code, l.offset = n) : ∃ l ∈ a.buriedCode, l.offset = n := by
      obtain ⟨l, there, rfl⟩ := old
      exact explored.exists_buried there
    have head {b : Block} (block : b ∈ a.blocks) : ∃ l ∈ a.code, l.offset = b.start := by
      obtain ⟨l, _, there, start⟩ := explored.exists_head block
      exact ⟨l, there, start⟩
    refine ⟨?_, nonempty, by omega, ?_, target ▸ kept fits.target⟩
    · obtain same | ⟨d, dead, same⟩ := piece.start_cases
      · simp only at same
        rw [same]
        exact kept fits.start
      · obtain ⟨b, block, _, rfl⟩ := mem_deadRanges.1 dead
        simp only at same
        rw [explored.blocks] at block
        obtain ends | ⟨other, next, starts⟩ := explored.holds.cut.stop_cases block
        · omega
        · rw [same, ← starts]
          exact kept (head (explored.blocks ▸ next))
    · obtain same | ⟨d, dead, same⟩ := piece.stop_cases
      · simp only at same
        rw [same]
        exact fits.stop.imp_right kept
      · obtain ⟨b, block, _, rfl⟩ := mem_deadRanges.1 dead
        simp only at same
        rw [same]
        exact .inr (kept (head block))

end Explored

end Analysis

end StackMaps
