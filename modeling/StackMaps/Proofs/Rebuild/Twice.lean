import StackMaps.Proofs.Rebuild.Paths

/-! Rebuilding twice. The second time changes nothing exactly where every frame of live code in the
new table is still needed once dead code is overwritten: jumps and handlers of dead code that lead
into live code are gone by then, and so is the reason for frames there. -/

namespace StackMaps

variable {H : Hierarchy} {l : FixedLoader} {graph : ClassGraph} {visits visits' : Nat}
  {signature : Signature} {code code' : Code} {pool pool' : Pool} {a a' : Analysis} {g g' : FlowGraph}
  {st st' : FlowState} {r r' : Rebuilt}

theorem Pool.Grows.longestText_le (grows : pool.Grows pool') : pool.longestText ≤ pool'.longestText := by
  obtain ⟨cs, rfl⟩ := grows
  induction cs generalizing pool with
  | nil => exact Nat.le_refl _
  | cons c cs ih => exact Nat.le_trans (pool.longestText_push c) (@ih (pool.push c))

namespace Analysis

theorem visitLimit_le {m : Type → Type} {s : HeaderSource m}
    (length : code'.bytes.length = code.bytes.length) (maxLocals : code'.maxLocals = code.maxLocals)
    (longest : pool.longestText ≤ pool'.longestText) :
    visitLimit s signature code pool ≤ visitLimit s signature code' pool' := by
  simp only [visitLimit, visitsNeeded, length, maxLocals]
  refine Nat.add_le_add_right (Nat.mul_le_mul_left _ (Nat.add_le_add_left ?_ 1)) _
  exact Nat.mul_le_mul_left _ (by omega)

theorem run_again (linked : graph.Built l) (built : pool.Built)
    (run : graph.answer (run (graph.source l.loader) signature code pool) = .ok a)
    (ok : a.rebuild code pool = .ok r) (keeps : a.KeepsTargets r) :
    graph.answer (Analysis.run (graph.source l.loader) signature r.code r.pool) =
      .ok (a.again r) := by
  obtain ⟨g, st, found⟩ := run_eq_ok.1 run
  obtain ⟨_, grows⟩ := rebuild_grows built ok
  have enough : visitLimit (graph.hierarchy l).source signature code pool ≤
      visitLimit (graph.hierarchy l).source signature r.code r.pool :=
    visitLimit_le (found.explored.length_rebuilt ok) (rebuilt_maxLocals ok) grows.longestText_le
  exact run_eq_ok.2 ⟨_, st, found.again linked.isRooted (grows.extends built) ok keeps enough⟩

theorem tableIndex?_eq_none (ok : a.rebuild code pool = .ok r) (nothing : a.frames = [])
    (same : r.code = code) : code.tableIndex? pool = none := by
  obtain ⟨frames, written, added, code_eq, _⟩ := rebuild_eq_ok.1 ok
  have empty : a.adding.run pool = (.ok (0, none), pool) := by
    simp only [adding, table, nothing]
    rfl
  rw [empty] at added
  obtain ⟨done, pool_eq⟩ := Prod.mk.inj added
  cases done
  cases index : code.tableIndex? pool with
  | none => rfl
  | some i =>
    have old : (a.buried code).tableIndex? r.pool = some i := pool_eq ▸ index
    have inside := (List.findIdx?_eq_some_iff_getElem.1 index).1
    simp only [same, Code.withTable, old] at code_eq
    have shorter := congrArg (fun code : Code => code.attributes.length) code_eq
    simp only [buried, List.length_eraseIdx_of_lt inside] at shorter
    omega

theorem Found.code_again (found : a.Found H visits signature code pool g st)
    (ok : a.rebuild code pool = .ok r)
    (found' : a'.Found H visits' signature r.code r.pool g' st') : a'.code = a.buriedCode := by
  have decoded := Code.instructions_eq_ok.2 (found.rebuilt_holds ok)
  rw [Code.instructions_eq_ok.2 found'.holds] at decoded
  exact Except.ok.inj decoded

theorem Found.frameTargets_again (found : a.Found H visits signature code pool g st)
    (ok : a.rebuild code pool = .ok r)
    (found' : a'.Found H visits' signature r.code r.pool g' st') :
    a'.frameTargets = a.newTargets r := by
  rw [found'.frameTargets, found.code_again ok found', newTargets]

theorem Found.gets_again_iff (found : a.Found H visits signature code pool g st)
    (ok : a.rebuild code pool = .ok r)
    (found' : a'.Found H visits' signature r.code r.pool g' st') {l : Located} :
    a'.Gets l ↔ a.Gets l := by
  rw [← found'.explored.executes_iff, found.code_again ok found', found.explored.rebuilt_executes_iff ok]

/-- Where a second table has the frames of the first one, they are still needed. -/
theorem Found.keepsTargets (found : a.Found H visits signature code pool g st)
    (ok : a.rebuild code pool = .ok r)
    (found' : a'.Found H visits' signature r.code r.pool g' st')
    (same : ∀ p ∈ a.frames, ∃ p' ∈ a'.frames, p'.1 = p.1) : a.KeepsTargets r := by
  rintro b block ⟨f, live⟩ target
  obtain ⟨p', there, start⟩ := same (b.start, f) (mem_frames.2 ⟨b, block, rfl, .inl ⟨live, target⟩⟩)
  obtain ⟨b', block', start', ⟨_, target'⟩ | ⟨dead, _⟩⟩ := mem_frames.1 there
  · rw [← found.frameTargets_again ok found']
    rwa [← start', start] at target'
  · -- Control still gets to the block, so it has not died.
    obtain ⟨head, own, _, place⟩ := found.explored.exists_head block
    obtain ⟨c, block'', ⟨f', live'⟩, gets⟩ :=
      (found.gets_again_iff ok found').2 ⟨b, block, ⟨f, live⟩, own⟩
    have bounds := (found'.explored.bounds block'' gets).2
    have proper := found'.explored.proper block'
    have same : b'.start = head.offset := by rw [← start', start, place]
    obtain rfl := found'.explored.block_unique block' block'' ⟨Nat.le_refl _, proper⟩ (by omega)
    cases dead.symm.trans live'

theorem stays_of_same (linked : graph.Built l) (built : pool.Built)
    (short : code.bytes.length ≤ 65535)
    (run : graph.answer (run (graph.source l.loader) signature code pool) = .ok a)
    (ok : a.rebuild code pool = .ok r) (low : r.summary.maxStack ≤ 65535)
    (run' : graph.answer (Analysis.run (graph.source l.loader) signature r.code r.pool) = .ok a')
    (ok' : a'.rebuild r.code r.pool = .ok r') (low' : r'.summary.maxStack ≤ 65535)
    (sameCode : r'.code = r.code) (samePool : r'.pool = r.pool) : a.Stays r := by
  obtain ⟨g, st, found⟩ := run_eq_ok.1 run
  obtain ⟨g', st', found'⟩ := run_eq_ok.1 run'
  obtain ⟨later, grows⟩ := rebuild_grows built ok
  have written := found.written built short ok low
  have written' := found'.written later (found.explored.length_rebuilt ok ▸ short) ok' low'
  by_cases none : a.frames = []
  · have keeps : a.KeepsTargets r :=
      found.keepsTargets ok found' (by simp [none])
    refine ⟨keeps, fun _ => tableIndex?_eq_none ok' ?_ sameCode⟩
    obtain rfl := Except.ok.inj ((run_again linked built run ok keeps).symm.trans run')
    rw [found.frames_again linked.isRooted ok keeps, none]
  · refine ⟨?_, fun empty => absurd empty none⟩
    have table := written.table none
    have some' : a'.frames ≠ [] := by
      intro empty
      have index := tableIndex?_eq_none ok' empty sameCode
      simp [Code.readTable, index] at table
    have table' := written'.table some'
    rw [sameCode, samePool, table] at table'
    have offsets := congrArg (List.map Prod.fst) (Option.some.inj table')
    simp only [List.map_map] at offsets
    refine found.keepsTargets ok found' fun p there => ?_
    have member : p.1 ∈ a'.frames.map Prod.fst := by
      have member := List.mem_map_of_mem (f := Prod.fst) there
      exact offsets ▸ member
    simpa using member

theorem Found.keepsTargets_of_live (found : a.Found H visits signature code pool g st)
    (ok : a.rebuild code pool = .ok r) (live : a.deadBlocks = []) : a.KeepsTargets r := by
  have alive (b : Block) (block : b ∈ a.blocks) : Block.buriedCode a.isDead b = b.code := by
    refine if_neg fun dead => ?_
    have member : b ∈ a.deadBlocks := List.mem_filter.2 ⟨block, dead⟩
    rw [live] at member
    cases member
  have code_eq : a.buriedCode = a.code := by
    rw [buriedCode, List.flatMap_congr alive, found.blocks, found.holds.cut.flatMap_code]
  have whole (h : Handler) (there : h ∈ code.handlers) : h.trim [] = [h] := by
    have nonempty := (found.holds.handlers h there).nonempty
    rw [Handler.trim, Handler.livePieces_apart nonempty (List.forall_mem_nil _)]
    simp
  have handlers : r.code.handlers = code.handlers := by
    rw [rebuilt_handlers ok, buried]
    simp only [live, List.map_nil]
    rw [List.flatMap_congr whole, List.flatMap_singleton']
  have targets : a.newTargets r = a.frameTargets := by
    rw [newTargets, code_eq, handlers, found.explored.length_rebuilt ok, found.frameTargets]
  intro b _ _ target
  rwa [targets]

instance : Decidable (a.KeepsTargets r) :=
  have (o : Option Frame) : Decidable (∃ f, o = some f) := decidable_of_iff _ Option.isSome_iff_exists
  inferInstanceAs (Decidable (∀ b ∈ a.blocks, (∃ f, a.entryFrame b = some f) →
    b.start ∈ a.frameTargets → b.start ∈ a.newTargets r))

instance : Decidable (a.Stays r) :=
  decidable_of_iff (a.KeepsTargets r ∧ (a.frames = [] → r.code.tableIndex? r.pool = none))
    ⟨fun ⟨keeps, single⟩ => ⟨keeps, single⟩, fun ⟨keeps, single⟩ => ⟨keeps, single⟩⟩

end Analysis

/-- Rebuilding a method again gives the same method, in the same pool, if and only if every frame of
live code that was written down is still needed in what was written, and a method that gets no frames
has no table left. -/
theorem rebuild_twice (linked : graph.Built l) (built : pool.Built)
    (ok : graph.answer (rebuild (graph.source l.loader) signature code pool) = .ok r) :
    ∃ a, graph.answer (Analysis.run (graph.source l.loader) signature code pool) = .ok a ∧
      (a.Stays r →
        graph.answer (rebuild (graph.source l.loader) signature r.code r.pool) = .ok r) ∧
      (code.bytes.length ≤ 65535 → r.summary.maxStack ≤ 65535 →
        ∀ r', graph.answer (rebuild (graph.source l.loader) signature r.code r.pool) = .ok r' →
          r'.summary.maxStack ≤ 65535 → r'.code = r.code → r'.pool = r.pool → a.Stays r) := by
  obtain ⟨a, run, ok⟩ := rebuild_eq_ok.1 ok
  refine ⟨a, run, fun stays => ?_, fun short low r' again low' sameCode samePool => ?_⟩
  · obtain ⟨g, st, found⟩ := Analysis.run_eq_ok.1 run
    have run' := Analysis.run_again linked built run ok stays.keeps
    exact rebuild_eq_ok.2 ⟨a.again r, run', found.rebuild_again linked.isRooted built ok stays⟩
  · obtain ⟨a', run', ok'⟩ := rebuild_eq_ok.1 again
    exact Analysis.stays_of_same linked built short run ok low run' ok' low' sameCode samePool

/-- A method whose dead code jumps to where live code jumps as well. -/
def leapSignature : Signature := ⟨.object, "leap", ⟨[], none⟩, true⟩

def leapCode : Code := ⟨1, 0, [0x03, 0x99, 0, 4, 0xb1, 0xb1, 0xa7, 0xff, 0xff], [], []⟩

theorem rebuild_twice_leap : ClassGraph.standard.Built .empty ∧ Pool.empty.Built ∧ ∃ a r,
    ClassGraph.standard.answer (Analysis.run (ClassGraph.standard.source FixedLoader.empty.loader)
      leapSignature leapCode .empty) = .ok a ∧
    ClassGraph.standard.answer (rebuild (ClassGraph.standard.source FixedLoader.empty.loader)
      leapSignature leapCode .empty) = .ok r ∧
    a.deadBlocks.length = 1 ∧ a.Stays r ∧ leapCode.bytes.length ≤ 65535 ∧ r.summary.maxStack ≤ 65535 ∧
    ClassGraph.standard.answer (rebuild (ClassGraph.standard.source FixedLoader.empty.loader)
      leapSignature r.code r.pool) = .ok r := by
  let analyzed := ClassGraph.standard.answer (Analysis.run
    (ClassGraph.standard.source FixedLoader.empty.loader) leapSignature leapCode .empty)
  let rebuilt := ClassGraph.standard.answer (rebuild
    (ClassGraph.standard.source FixedLoader.empty.loader) leapSignature leapCode .empty)
  have facts : (analyzed.toOption.bind fun a => rebuilt.toOption.map fun r =>
      decide (a.deadBlocks.length = 1 ∧ a.Stays r ∧ r.summary.maxStack ≤ 65535)) = some true := by
    decide +kernel
  obtain ⟨a, run, facts⟩ := Option.bind_eq_some_iff.1 facts
  obtain ⟨r, ok, facts⟩ := Option.map_eq_some_iff.1 facts
  have run : analyzed = .ok a := toOption_eq_some.1 run
  have ok : rebuilt = .ok r := toOption_eq_some.1 ok
  obtain ⟨dead, stays, low⟩ := of_decide_eq_true facts
  obtain ⟨a', run', same, back⟩ := rebuild_twice .standard Pool.built_empty ok
  obtain rfl := Except.ok.inj (run.symm.trans run')
  have again := same stays
  exact ⟨.standard, Pool.built_empty, a, r, run, ok, dead,
    back (by decide) low r again low rfl rfl, by decide, low, again⟩

/-- The frame behind a constant that only dead code jumps to is not written down the second time. -/
example : (ClassGraph.standard.answer (rebuild (ClassGraph.standard.source FixedLoader.empty.loader)
      leapSignature ⟨1, 0, [0x03, 0x57, 0xb1, 0xa7, 0xff, 0xfe], [], []⟩ .empty)).toOption.bind (fun r =>
    (ClassGraph.standard.answer (rebuild (ClassGraph.standard.source FixedLoader.empty.loader)
      leapSignature r.code r.pool)).toOption.map fun r' => (r.summary.frames, r'.summary.frames)) =
        some (2, 1) := by
  decide +kernel

end StackMaps
