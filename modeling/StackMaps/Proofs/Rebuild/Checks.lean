import StackMaps.Proofs.Flow.LinearPass
import StackMaps.Proofs.Rebuild.Expand

/-! The method that is written checks against its own new table. Live blocks check from the frames
that the analysis found, or from those below that control falls into them with; tombs check from
theirs; and no block that control gets to is left without a frame where control does not fall into
it. -/

namespace StackMaps

variable {H : Hierarchy} {visits : Nat} {signature : Signature} {code : Code} {pool : Pool}
  {a : Analysis} {g : FlowGraph} {st : FlowState} {r : Rebuilt} {f out : Frame} {b : Block} {n : Nat}
  {current : Option Frame} {rest : List Located}

theorem FlowGraph.checks_tomb {le : Frame → Frame → Prop} {table : Nat → Option Frame}
    {start length : Nat} {locals : List FlowType} {type : RefType}
    (enters : Enters le (table start) current (.atHandler locals type))
    (inner : ∀ offset, start < offset → offset < start + (length + 1) → table offset = none)
    (bare : ∀ c ∈ g.clauses, ∀ offset, start ≤ offset → offset < start + (length + 1) →
      c.covers offset = false)
    (next : g.Checks le table none rest) :
    g.Checks le table current (Block.tombCode start (length + 1) ++ rest) := by
  have uncaught {offset : Nat} (first : start ≤ offset) (last : offset < start + (length + 1))
      {f after : Frame} : ∀ c ∈ g.clauses, c.covers offset = true → ∃ f', table c.target = some f' ∧
        le (.atHandler f.locals c.type) f' ∧ le (.atHandler after.locals c.type) f' := by
    intro c member covers
    rw [bare c member offset first last] at covers
    cases covers
  induction length generalizing start current with
  | zero =>
    exact ⟨_, .atHandler locals type, enters, ⟨rfl, nofun, uncaught (Nat.le_refl _) (by omega)⟩, next⟩
  | succ length ih =>
    refine ⟨_, .atHandler locals type, enters,
      ⟨rfl, nofun, uncaught (Nat.le_refl _) (by omega)⟩, ih ?_ ?_ ?_ ?_⟩
    · rw [inner (start + 1) (by omega) (by omega)]
      exact .fallsInto _
    · exact fun offset first last => inner offset (by omega) (by omega)
    · exact fun c member offset first last => bare c member offset (by omega) (by omega)
    · exact fun first last => uncaught (by omega) (by omega)

theorem lookup_eq_some {α : Type} {table : List (Nat × α)} {x : α}
    (sorted : table.Pairwise (·.1 < ·.1)) : table.lookup n = some x ↔ (n, x) ∈ table := by
  induction table with
  | nil => simp
  | cons p table ih =>
    obtain ⟨k, y⟩ := p
    obtain ⟨first, sorted⟩ := List.pairwise_cons.1 sorted
    rw [List.lookup_cons]
    by_cases here : n = k
    · subst here
      have once : (n, x) ∉ table := fun there => absurd (first _ there) (Nat.lt_irrefl n)
      simp [once, eq_comm]
    · rw [beq_eq_false_iff_ne.2 here]
      simp [here, ih sorted]

namespace Analysis

def fullFrames (a : Analysis) (maxLocals : Nat) : List (Nat × Frame) :=
  a.frames.map fun (offset, f) => (offset, f.pad maxLocals)

def expected (a : Analysis) (maxLocals : Nat) (n : Nat) : Option Frame :=
  (a.fullFrames maxLocals).lookup n

namespace Found

theorem fullFrames_sorted (found : a.Found H visits signature code pool g st) (maxLocals : Nat) :
    (a.fullFrames maxLocals).Pairwise (·.1 < ·.1) := by
  rw [fullFrames, List.pairwise_map]
  exact frames_sorted found

theorem expected_entry (found : a.Found H visits signature code pool g st) (rooted : H.IsRooted)
    (entry : a.entry[n]? = some f) (target : n ∈ a.frameTargets) :
    a.expected code.maxLocals.toNat n = some f := by
  obtain ⟨b, there⟩ := (found.sound rooted).1.isBlock n f entry
  obtain ⟨block, rfl⟩ := found.explored.getElem?_blocks.1 there
  refine (lookup_eq_some (found.fullFrames_sorted _)).2 (List.mem_map.2 ⟨(b.start, f), ?_, ?_⟩)
  · exact mem_frames.2 ⟨b, block, rfl, .inl ⟨entry, target⟩⟩
  · simp only [Frame.pad_eq (Nat.le_of_eq (found.regular entry).locals.symm)]

theorem expected_dead (found : a.Found H visits signature code pool g st) (block : b ∈ a.blocks)
    (dead : a.entryFrame b = none) : ∃ locals, a.expected code.maxLocals.toNat b.start =
      some (.atHandler locals (.object .throwable)) :=
  ⟨_, (lookup_eq_some (found.fullFrames_sorted _)).2
    (List.mem_map.2 ⟨(b.start, .dead), mem_frames.2 ⟨b, block, rfl, .inr ⟨dead, rfl⟩⟩, rfl⟩)⟩

theorem expected_none (found : a.Found H visits signature code pool g st)
    (free : ∀ b ∈ a.blocks, b.start = n → (∃ f, a.entryFrame b = some f) ∧ n ∉ a.frameTargets) :
    a.expected code.maxLocals.toNat n = none := by
  cases there : a.expected code.maxLocals.toNat n with
  | none => rfl
  | some f =>
    obtain ⟨p, member, same⟩ := List.mem_map.1 ((lookup_eq_some (found.fullFrames_sorted _)).1 there)
    obtain ⟨b, block, start, kind⟩ := mem_frames.1 member
    obtain ⟨⟨f', live⟩, no⟩ := free b block (start.symm.trans (congrArg Prod.fst same))
    obtain ⟨_, target⟩ | ⟨dead, _⟩ := kind
    · rw [← start, congrArg Prod.fst same] at target
      exact absurd target no
    · rw [live] at dead
      cases dead

theorem expected_inner (found : a.Found H visits signature code pool g st) (block : b ∈ a.blocks)
    (first : b.start < n) (last : n < b.stop) :
    a.expected code.maxLocals.toNat n = none := by
  refine found.expected_none fun b' block' start => ?_
  have proper := found.explored.proper block'
  have same := found.explored.block_unique block block' ⟨Nat.le_of_lt first, last⟩ ⟨by omega, by omega⟩
  subst same
  omega

theorem target_mem (found : a.Found H visits signature code pool g st) {l : Located}
    (there : l ∈ a.code) {target : Nat} (jumps : target ∈ l.instruction.targets) :
    target ∈ a.frameTargets := by
  rw [found.frameTargets]
  exact Block.mem_frameTargets.2
    (.inl ⟨l, there, Instruction.isBranch_of_target jumps, .inl jumps⟩)

theorem clause_target_mem (found : a.Found H visits signature code pool g st) {c : CatchClause}
    (there : c ∈ g.clauses) : c.target ∈ a.frameTargets := by
  obtain ⟨h, member, ok⟩ := mem_of_mapM_eq_ok found.clauses there
  obtain ⟨type, _, rfl⟩ := Handler.clause_eq_ok.1 ok
  rw [found.frameTargets]
  exact Block.mem_frameTargets.2 (.inr ⟨h, member, rfl⟩)

/-- A live block fits the new table. -/
theorem fitsTable (found : a.Found H visits signature code pool g st) (rooted : H.IsRooted)
    (block : b ∈ a.blocks) (live : a.entryFrame b = some f) : ∃ out targets, g.Passes b f out targets ∧
      g.FitsTable H.Under (a.expected code.maxLocals.toNat) f b.code out := by
  have solution := (found.sound rooted).1
  have there := found.explored.getElem?_blocks.2 ⟨block, rfl⟩
  obtain ⟨out, targets, passes⟩ := solution.passes b.start b f there live
  obtain ⟨last, last?, successors⟩ := passes.successors
  refine ⟨out, targets, passes, passes.follow, fun l => found.explored.straight block, fun l inner => ?_,
    fun target sent raises => ?_, fun l l? target jumps => ?_⟩
  · have bounds := found.explored.bounds block (List.mem_of_mem_tail inner)
    exact found.expected_inner block (found.explored.start_lt_of_mem_tail block inner) (by omega)
  · obtain ⟨f', entry, below⟩ := solution.flows b.start b f there live target sent (.raises raises)
    obtain ⟨_, _, c, clause, _, rfl⟩ := raises.exists_clause
    exact ⟨f', found.expected_entry rooted entry (found.clause_target_mem clause), below⟩
  · cases last?.symm.trans l?
    obtain ⟨f', entry, below⟩ := solution.flows b.start b f there live target out
      (.leaves passes ((FlowGraph.successors_eq_ok successors).2 (.inl jumps)))
    have member := (found.explored.bounds block (List.mem_of_getLast? last?)).1
    exact ⟨f', found.expected_entry rooted entry (found.target_mem member jumps), below⟩

/-- Where no frame has to be written down, control that gets there has fallen into it from the block
before. -/
theorem fallen_into (found : a.Found H visits signature code pool g st) (rooted : H.IsRooted)
    (entry : a.entry[n]? = some f) (later : n ≠ 0) (free : n ∉ a.frameTargets) :
    ∃ b ∈ a.blocks, b.stop = n ∧ (∃ f, a.entryFrame b = some f) ∧
      ∃ last, b.code.getLast? = some last ∧ last.instruction.fallsThrough = true := by
  have reached := (found.sound rooted).2
  obtain same | ⟨m, before, b, there, way⟩ := ((reached n).1 ⟨f, entry⟩).cases_tail
  · exact absurd same later
  · obtain ⟨block, rfl⟩ := found.explored.getElem?_blocks.1 there
    obtain ⟨last, last?, jumps | ⟨falls, rfl⟩⟩ | ⟨_, _, c, clause, _, rfl⟩ := way
    · have member := (found.explored.bounds block (List.mem_of_getLast? last?)).1
      exact absurd (found.target_mem member jumps) free
    · exact ⟨b, block, (found.explored.last_next block last?).symm, (reached _).2 before, last, last?, falls⟩
    · exact absurd (found.clause_target_mem clause) free

theorem coveredBy (found : a.Found H visits signature code pool g st) :
    (a.rebuiltGraph signature r g).CoveredBy g := by
  intro c' there offset covers
  obtain ⟨c, clause, there⟩ := List.mem_flatMap.1 there
  obtain ⟨target, type, covered⟩ :=
    CatchClause.mem_trim found.explored.deadRanges_sorted found.explored.deadRanges_proper there
  exact ⟨c, clause, (covered offset covers).1, target.symm, type.symm⟩

theorem bare (found : a.Found H visits signature code pool g st) (block : b ∈ a.blocks)
    (dead : a.entryFrame b = none) {c' : CatchClause}
    (there : c' ∈ (a.rebuiltGraph signature r g).clauses) {offset : Nat} (first : b.start ≤ offset)
    (last : offset < b.stop) : c'.covers offset = false := by
  obtain ⟨c, _, there⟩ := List.mem_flatMap.1 there
  obtain ⟨_, _, covered⟩ :=
    CatchClause.mem_trim found.explored.deadRanges_sorted found.explored.deadRanges_proper there
  refine Bool.eq_false_iff.2 fun covers => ?_
  exact (covered offset covers).2 _ (mem_deadRanges.2 ⟨b, block, dead, rfl⟩) ⟨first, last⟩

end Found

/-- What holds where a block can start: a current frame is below the one that the analysis found, and
without one a frame is expected. -/
structure Boundary (H : Hierarchy) (a : Analysis) (n : Nat) (current : Option Frame) : Prop where
  arrives : ∀ f', current = some f' → ∃ f, a.entry[n]? = some f ∧ f'.Below H.Under f
  waits : current = none → n ∈ a.frameTargets ∨ a.entry[n]? = none

/-- Instructions of the method that is written check, from a current frame. -/
abbrev ChecksFrom (H : Hierarchy) (a : Analysis) (signature : Signature) (code : Code) (r : Rebuilt)
    (g : FlowGraph) (current : Option Frame) (rest : List Located) : Prop :=
  (a.rebuiltGraph signature r g).Checks (Frame.Below H.Under) (a.expected code.maxLocals.toNat)
    current rest

def ChecksAfter (H : Hierarchy) (a : Analysis) (signature : Signature) (code : Code) (r : Rebuilt)
    (g : FlowGraph) (b : Block) (rest : List Located) : Prop :=
  ∀ current, (b.stop = code.bytes.length → current = none) →
    (b.stop < code.bytes.length → a.Boundary H b.stop current) →
    a.ChecksFrom H signature code r g current rest

namespace Found

theorem waits (found : a.Found H visits signature code pool g st) (rooted : H.IsRooted)
    (block : b ∈ a.blocks) (ends : ∀ f last, a.entryFrame b = some f → b.code.getLast? = some last →
      ¬ last.instruction.fallsThrough = true) :
    b.stop ∈ a.frameTargets ∨ a.entry[b.stop]? = none := by
  cases entry : a.entry[b.stop]? with
  | none => exact .inr rfl
  | some f =>
    left
    by_contra free
    have later := found.explored.proper block
    obtain ⟨b', block', stop, ⟨f', live⟩, last, last?, falls⟩ :=
      found.fallen_into rooted entry (by omega) free
    have earlier := found.explored.proper block'
    have inside : b'.start ≤ b.stop - 1 ∧ b.stop - 1 < b'.stop := by omega
    obtain rfl := found.explored.block_unique block' block inside (by omega)
    exact ends f' last live last? falls

theorem exists_enters (found : a.Found H visits signature code pool g st) (rooted : H.IsRooted)
    (block : b ∈ a.blocks) (live : a.entryFrame b = some f) (boundary : a.Boundary H b.start current) :
    ∃ f', f'.Below H.Under f ∧
      FlowGraph.Enters (Frame.Below H.Under) (a.expected code.maxLocals.toNat b.start) current f' := by
  have arrives {f' : Frame} (same : current = some f') : f'.Below H.Under f := by
    obtain ⟨f₁, entry, below⟩ := boundary.arrives f' same
    cases entry.symm.trans live
    exact below
  by_cases target : b.start ∈ a.frameTargets
  · rw [found.expected_entry rooted live target]
    exact ⟨f, .refl f, .takesOver fun arriving same => arrives same⟩
  · rw [found.expected_none fun b' block' same => by
      rw [← found.explored.start_unique block block' same.symm]
      exact ⟨⟨f, live⟩, target⟩]
    cases current with
    | none =>
      obtain member | dead := boundary.waits rfl
      · exact absurd member target
      · cases dead.symm.trans live
    | some arriving => exact ⟨arriving, arrives rfl, .fallsInto arriving⟩

/-- A live block checks, and leaves what the next block needs. -/
theorem checks_live (found : a.Found H visits signature code pool g st) (rooted : H.IsRooted)
    (extends_ : r.pool.Extends pool) (block : b ∈ a.blocks) (live : a.entryFrame b = some f)
    (boundary : a.Boundary H b.start current) (next : a.ChecksAfter H signature code r g b rest) :
    a.ChecksFrom H signature code r g current (b.code ++ rest) := by
  have order := rooted.isUpper.order
  obtain ⟨out, targets, passes, fits⟩ := found.fitsTable rooted block live
  obtain ⟨last, last?, successors⟩ := passes.successors
  obtain ⟨head, tail, held⟩ := found.explored.held block
  obtain ⟨f', below, enters⟩ := found.exists_enters rooted block live boundary
  have stops := found.explored.last_next block last?
  rw [held.code] at fits last? ⊢
  rw [held.start] at enters
  refine fits.checks order (found.context_extends extends_) found.coveredBy below enters
    fun last' out' last?' below' => next _ (fun ends => ?_) fun inside => ?_
  all_goals cases last?.symm.trans last?'
  · -- A method has no end to fall off.
    have length : g.length = code.bytes.length := by rw [found.graph]; rfl
    refine if_neg fun falls => ?_
    simp only [FlowGraph.successors, falls, if_true] at successors
    rw [if_pos (by omega)] at successors
    cases successors
  · by_cases falls : last.instruction.fallsThrough = true
    · have leads := (FlowGraph.successors_eq_ok successors).2 (.inr ⟨falls, stops.symm⟩)
      obtain ⟨f₁, entry, below₁⟩ := (found.sound rooted).1.flows b.start b f
        (found.explored.getElem?_blocks.2 ⟨block, rfl⟩) live b.stop out (.leaves passes leads)
      rw [if_pos falls]
      refine ⟨fun f'' same => ?_, nofun⟩
      cases same
      exact ⟨f₁, entry, below'.trans order below₁⟩
    · rw [if_neg falls]
      refine ⟨nofun, fun _ => found.waits rooted block fun _ last' _ same => ?_⟩
      rw [held.code] at same
      cases last?.symm.trans same
      exact falls

theorem checks_dead (found : a.Found H visits signature code pool g st) (rooted : H.IsRooted)
    (block : b ∈ a.blocks) (dead : a.entryFrame b = none) (boundary : a.Boundary H b.start current)
    (next : a.ChecksAfter H signature code r g b rest) : a.ChecksFrom H signature code r g current
      (Block.tombCode b.start (b.stop - b.start) ++ rest) := by
  have proper := found.explored.proper block
  obtain ⟨length, size⟩ : ∃ length, b.stop - b.start = length + 1 := ⟨b.stop - b.start - 1, by omega⟩
  obtain ⟨locals, expected⟩ := found.expected_dead block dead
  have enters : FlowGraph.Enters (Frame.Below H.Under) (a.expected code.maxLocals.toNat b.start)
      current (.atHandler locals (.object .throwable)) := by
    rw [expected]
    refine .takesOver fun arriving same => ?_
    obtain ⟨f, entry, _⟩ := boundary.arrives arriving same
    cases entry.symm.trans dead
  rw [size]
  refine FlowGraph.checks_tomb enters (fun offset first last => ?_) (fun c there offset first last => ?_)
    (next none (fun _ => rfl) fun inside => ⟨nofun, fun _ => ?_⟩)
  · exact found.expected_inner block first (by omega)
  · exact found.bare block dead there first (by omega)
  · refine found.waits rooted block fun f _ live => ?_
    cases live.symm.trans dead

/-- Consecutive blocks check, from what holds at the first of them. -/
theorem checks_blocks (found : a.Found H visits signature code pool g st) (rooted : H.IsRooted)
    (extends_ : r.pool.Extends pool) {leaders : Std.TreeSet Nat} {located : List Located}
    {blocks : List Block} (cut : Block.Cut leaders code.bytes.length located blocks)
    (all : ∀ b ∈ blocks, b ∈ a.blocks)
    (boundary : ∀ head, located.head? = some head → a.Boundary H head.offset current) :
    a.ChecksFrom H signature code r g current (blocks.flatMap (Block.buriedCode a.isDead)) := by
  have checks {b : Block} {current : Option Frame} {rest : List Located} (block : b ∈ a.blocks)
      (boundary : a.Boundary H b.start current) (next : a.ChecksAfter H signature code r g b rest) :
      a.ChecksFrom H signature code r g current (Block.buriedCode a.isDead b ++ rest) := by
    rw [Block.buriedCode]
    split
    next dead => exact found.checks_dead rooted block (isDead_iff.1 dead) boundary next
    next alive =>
      obtain ⟨f, live⟩ := Option.ne_none_iff_exists'.1 (mt isDead_iff.2 alive)
      exact found.checks_live rooted extends_ block live boundary next
  induction cut generalizing current with
  | last holds stop =>
    rw [List.flatMap_singleton, ← List.append_nil (Block.buriedCode ..)]
    refine checks (all _ List.mem_cons_self) (holds.start ▸ boundary _ rfl) fun current ends _ => ?_
    exact ends stop
  | @cons b head next tail rest blocks holds stop leader further ih =>
    obtain ⟨first, all⟩ := List.forall_mem_cons.1 all
    rw [List.flatMap_cons]
    refine checks first (holds.start ▸ boundary _ rfl) fun current _ go => ih all fun head' same => ?_
    cases same
    obtain ⟨b', there, start⟩ := further.exists_block List.mem_cons_self (.inr rfl)
    have inside := found.explored.starts.2 b' (all b' there)
    rw [← stop]
    exact go (by omega)

theorem checks (found : a.Found H visits signature code pool g st) (rooted : H.IsRooted)
    (extends_ : r.pool.Extends pool) :
    a.ChecksFrom H signature code r g (some a.initial) a.buriedCode := by
  have cut := found.holds.cut
  rw [← found.blocks] at cut
  refine found.checks_blocks rooted extends_ cut (fun _ => id) fun head first => ?_
  have start : head.offset = 0 := by
    obtain ⟨rest, whole⟩ := List.head?_eq_some_iff.1 first
    exact (whole ▸ found.holds.decodes).offset_eq
  obtain ⟨f, entry, below⟩ := (found.sound rooted).1.start
  rw [start]
  refine ⟨fun f' same => ?_, nofun⟩
  cases same
  exact ⟨f, entry, below⟩

theorem expected_starts (found : a.Found H visits signature code pool g st) {maxLocals : Nat}
    {p : Nat × Frame} (there : p ∈ a.fullFrames maxLocals) : ∃ l ∈ a.buriedCode, l.offset = p.1 := by
  obtain ⟨q, member, rfl⟩ := List.mem_map.1 there
  obtain ⟨b, block, start, _⟩ := mem_frames.1 member
  obtain ⟨head, _, first, place⟩ := found.explored.exists_head block
  obtain ⟨l, there, same⟩ := found.explored.exists_buried first
  exact ⟨l, there, same.trans (place.trans start.symm)⟩

end Found

end Analysis

/-- A method that was rebuilt checks against its own new table in one pass: every instruction passes on
the current frame or the one that the table has for it, what arrives at a frame of the table can be
used as that frame, and wherever control gets to in another way than from the instruction before,
there is a frame. -/
theorem rebuild_checks {l : FixedLoader} {graph : ClassGraph} (linked : graph.Built l)
    (built : pool.Built) (short : code.bytes.length ≤ 65535)
    (ok : graph.answer (rebuild (graph.source l.loader) signature code pool) = .ok r)
    (low : r.summary.maxStack ≤ 65535) :
    ∃ located g initial frames, r.code.instructions = .ok located ∧
      FlowGraph.ofCode signature r.code r.pool = .ok g ∧
      signature.initialFrame r.code.maxLocals = .ok initial ∧
      r.expandTable signature located = some frames ∧
      frames.Pairwise (·.1 < ·.1) ∧ (∀ p ∈ frames, ∃ i ∈ located, i.offset = p.1) ∧
      g.Checks (Frame.Assignable (graph.hierarchy l)) (fun offset => frames.lookup offset)
        (some initial) located := by
  obtain ⟨a, run, rebuilt⟩ := rebuild_eq_ok.1 ok
  obtain ⟨visits, g, st, found⟩ := Analysis.found_of_run run
  have written := found.written built short rebuilt low
  have extends_ := written.grows.extends built
  refine ⟨a.buriedCode, a.rebuiltGraph signature r g, a.initial, a.fullFrames code.maxLocals.toNat,
    Code.instructions_eq_ok.2 (found.rebuilt_holds rebuilt), found.rebuilt_ofCode extends_ rebuilt,
    written.maxLocals ▸ found.initial, found.expandTable linked.isRooted short built written,
    found.fullFrames_sorted _, fun p => found.expected_starts, ?_⟩
  exact (found.checks linked.isRooted extends_).imp fun _ _ below => below.assignable

/-- A method that jumps over a piece of its code, which the range of its handler starts in. -/
def skipSignature : Signature := ⟨.object, "skip", ⟨[.ref (.object .integer)], none⟩, true⟩

def skipCode : Code :=
  ⟨1, 1, [0xa7, 0, 5, 0x00, 0x00, 0x2a, 0x57, 0xb1, 0x57, 0xb1], [⟨3, 7, 8, none⟩], []⟩

theorem rebuild_checks_skip : ClassGraph.standard.Built .empty ∧ Pool.empty.Built ∧
    skipCode.bytes.length ≤ 65535 ∧ ∃ r, ClassGraph.standard.answer (rebuild
        (ClassGraph.standard.source FixedLoader.empty.loader) skipSignature skipCode .empty) = .ok r ∧
      r.summary.maxStack ≤ 65535 ∧
      ∃ located g initial frames, r.code.instructions = .ok located ∧
        FlowGraph.ofCode skipSignature r.code r.pool = .ok g ∧
        r.expandTable skipSignature located = some frames ∧
        g.Checks (Frame.Assignable (ClassGraph.standard.hierarchy .empty))
          (fun offset => frames.lookup offset) (some initial) located := by
  have low : ((ClassGraph.standard.answer (rebuild (ClassGraph.standard.source
      FixedLoader.empty.loader) skipSignature skipCode .empty)).toOption.map fun r =>
        decide (r.summary.maxStack ≤ 65535)) = some true := by decide +kernel
  obtain ⟨r, ok, low⟩ := Option.map_eq_some_iff.1 low
  have ok := toOption_eq_some.1 ok
  have low : r.summary.maxStack ≤ 65535 := of_decide_eq_true low
  obtain ⟨located, g, initial, frames, decoded, ready, _, expanded, _, _, checks⟩ :=
    rebuild_checks .standard Pool.built_empty (by decide) ok low
  exact ⟨.standard, Pool.built_empty, by decide, r, ok, low, located, g, initial, frames, decoded,
    ready, expanded, checks⟩

end StackMaps
