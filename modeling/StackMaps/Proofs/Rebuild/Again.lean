import StackMaps.Proofs.Flow.Agree
import StackMaps.Proofs.Rebuild.Leaders

/-! The analysis of the method that is written. Where blocks still start at the same places, it finds
the same frames, and so the table is the same again. -/

namespace StackMaps

variable {H : Hierarchy} {visits : Nat} {signature : Signature} {code : Code} {pool : Pool}
  {a : Analysis} {g : FlowGraph} {st : FlowState} {r : Rebuilt} {b : Block} {n : Nat}

theorem filterMap_congr_of_forall₂ {α β γ : Type} {R : α → β → Prop} {f : α → Option γ}
    {f' : β → Option γ} {as : List α} {bs : List β} (related : List.Forall₂ R as bs)
    (same : ∀ a b, a ∈ as → R a b → f a = f' b) : as.filterMap f = bs.filterMap f' := by
  induction related with
  | nil => rfl
  | cons first _ ih =>
    rw [List.filterMap_cons, List.filterMap_cons, same _ _ List.mem_cons_self first,
      ih fun a b there => same a b (List.mem_cons_of_mem _ there)]

/-- Live code is covered by one piece of each clause that covered it. -/
theorem FlowGraph.caughtAt_trim {clauses : List CatchClause} {dead : List (Nat × Nat)}
    (proper : ∀ d ∈ dead, d.1 < d.2) {offset : Nat}
    (live : ∀ d ∈ dead, ¬ (d.1 ≤ offset ∧ offset < d.2)) :
    ((clauses.flatMap (·.trim dead)).filter (·.covers offset)).map (fun c => (c.target, c.type)) =
      (clauses.filter (·.covers offset)).map fun c => (c.target, c.type) := by
  have one (c : CatchClause) : ((c.trim dead).filter (·.covers offset)).map (fun c => (c.target, c.type)) =
      if c.covers offset then [(c.target, c.type)] else [] := by
    rw [CatchClause.trim, List.filter_map, List.map_map]
    change ((Handler.livePieces c.start c.stop dead).filter fun p =>
      p.1 ≤ offset && offset < p.2).map (fun _ => (c.target, c.type)) = _
    rw [List.map_const', Handler.length_filter_livePieces proper live]
    simp only [CatchClause.covers_iff]
    split <;> rfl
  induction clauses with
  | nil => rfl
  | cons c clauses ih =>
    rw [List.flatMap_cons, List.filter_append, List.map_append, ih, one, List.filter_cons]
    split <;> rfl

namespace Analysis

def again (a : Analysis) (r : Rebuilt) : Analysis where
  code := a.buriedCode
  blocks := r.code.blocks a.buriedCode
  entry := a.entry
  frameTargets := a.newTargets r
  initial := a.initial
  maxStack := a.maxStack

theorem rebuilt_maxLocals (ok : a.rebuild code pool = .ok r) : r.code.maxLocals = code.maxLocals := by
  obtain ⟨_, written, _, same, _⟩ := rebuild_eq_ok.1 ok
  rw [same, Code.maxLocals_withTable]
  rfl

namespace Found

theorem agrees (found : a.Found H visits signature code pool g st) (rooted : H.IsRooted)
    (extends_ : r.pool.Extends pool) (ok : a.rebuild code pool = .ok r) (keeps : a.KeepsTargets r) :
    g.Agrees (a.rebuiltGraph signature r g) where
  length := by
    rw [found.graph]
    exact found.explored.length_rebuilt ok
  blocks n reaches := by
    obtain ⟨solution, reached⟩ := found.sound rooted
    obtain ⟨f, entry⟩ := (reached n).2 reaches
    obtain ⟨b, there⟩ := solution.isBlock n f entry
    obtain ⟨block, rfl⟩ := found.explored.getElem?_blocks.1 there
    obtain ⟨b', block', takes⟩ := exists_of_forall₂ (found.blocks_rebuilt ok keeps) block
    have live : a.isDead b = false := by
      rw [Bool.eq_false_iff]
      intro dead
      cases (isDead_iff.1 dead).symm.trans entry
    have same : b'.code = b.code := by simp [takes.code, Block.buriedCode, live]
    refine ⟨b, b', there, (found.rebuilt_holds ok).getElem?_blocks.2 ⟨block', takes.start⟩, same, ?_⟩
    intro l own
    exact FlowGraph.caughtAt_trim found.explored.deadRanges_proper (found.explored.not_mem_deadRanges block entry own)
  step l f after ok := by
    have extends_ : (a.rebuiltGraph signature r g).context.Extends g.context :=
      found.context_extends extends_
    exact FlowGraph.stepAt_eq_ok.2 (Frame.step_extended extends_ (FlowGraph.stepAt_eq_ok.1 ok))

/-- The analysis finds the same frames again. -/
theorem again (found : a.Found H visits signature code pool g st) (rooted : H.IsRooted)
    (extends_ : r.pool.Extends pool) (ok : a.rebuild code pool = .ok r) (keeps : a.KeepsTargets r)
    {more : Nat} (enough : visits ≤ more) : (a.again r).Found H more signature r.code r.pool
      (a.rebuiltGraph signature r g) st where
  holds := found.rebuilt_holds ok
  clauses := found.rebuilt_clauses extends_ ok
  graph := rfl
  initial := by
    rw [rebuilt_maxLocals ok]
    exact found.initial
  settled := by
    refine FlowGraph.settle_more enough (FlowGraph.settle_agrees
      (FlowGraph.isClosed_of_ofCode found.ofCode) (found.agrees rooted extends_ ok keeps) ?_ found.settled)
    exact FlowState.of_entering ⟨trivial, .refl⟩
  blocks := rfl
  entry := found.entry
  frameTargets := rfl
  maxStack := found.maxStack

theorem frames_again (found : a.Found H visits signature code pool g st) (rooted : H.IsRooted)
    (ok : a.rebuild code pool = .ok r) (keeps : a.KeepsTargets r) : (a.again r).frames = a.frames := by
  refine (filterMap_congr_of_forall₂ (found.blocks_rebuilt ok keeps) fun b b' block takes => ?_).symm
  have entry : (a.again r).entryFrame b' = a.entryFrame b := by
    rw [entryFrame, entryFrame, takes.start]
    rfl
  rw [entry, takes.start]
  cases live : a.entryFrame b with
  | none => rfl
  | some f =>
    have target : (a.again r).frameTargets.contains b.start = a.frameTargets.contains b.start := by
      rw [Bool.eq_iff_iff, Std.TreeSet.contains_iff_mem, Std.TreeSet.contains_iff_mem]
      exact ⟨found.mem_frameTargets_of_new rooted ok ⟨f, live⟩, keeps b block ⟨f, live⟩⟩
    simp only [target]

theorem deadRanges_again (found : a.Found H visits signature code pool g st)
    (ok : a.rebuild code pool = .ok r) (keeps : a.KeepsTargets r) :
    (a.again r).deadRanges = a.deadRanges := by
  have ranges (a : Analysis) : a.deadRanges = a.blocks.filterMap fun b =>
      if (a.entryFrame b).isNone then some (b.start, b.stop) else none := by
    rw [deadRanges, deadBlocks]
    induction a.blocks with
    | nil => rfl
    | cons b blocks ih =>
      rw [List.filter_cons, List.filterMap_cons]
      split <;> simp [ih]
  rw [ranges, ranges]
  refine (filterMap_congr_of_forall₂ (found.blocks_rebuilt ok keeps) fun b b' _ takes => ?_).symm
  have entry : (a.again r).entryFrame b' = a.entryFrame b := by
    rw [entryFrame, entryFrame, takes.start]
    rfl
  rw [entry, takes.start, takes.stop]

theorem length_deadBlocks_again (found : a.Found H visits signature code pool g st)
    (ok : a.rebuild code pool = .ok r) (keeps : a.KeepsTargets r) :
    (a.again r).deadBlocks.length = a.deadBlocks.length := by
  have ranges := congrArg List.length (found.deadRanges_again ok keeps)
  simpa only [deadRanges, List.length_map] using ranges

theorem buried_again (found : a.Found H visits signature code pool g st)
    (ok : a.rebuild code pool = .ok r) (keeps : a.KeepsTargets r) :
    (a.again r).buried r.code = r.code := by
  have ranges := found.deadRanges_again ok keeps
  have empty : (a.again r).deadBlocks.isEmpty = a.deadBlocks.isEmpty := by
    rw [Bool.eq_iff_iff, List.isEmpty_iff_length_eq_zero, List.isEmpty_iff_length_eq_zero,
      found.length_deadBlocks_again ok keeps]
  have maxStack : r.code.maxStack =
      if !a.deadBlocks.isEmpty ∧ code.maxStack = 0 then 1 else code.maxStack := by
    obtain ⟨_, written, _, same, _⟩ := rebuild_eq_ok.1 ok
    obtain ⟨attributes, changed⟩ := (a.buried code).withTable_eq r.pool written
    rw [same, changed]
    rfl
  have bytes : Block.buryOnto (a.again r).isDead [] (a.again r).blocks r.code.bytes = r.code.bytes := by
    rw [rebuilt_bytes ok]
    refine found.explored.pieces.bury_bury
      ((found.blocks_rebuilt ok keeps).imp fun b b' takes => ⟨?_, takes.start, takes.stop⟩)
    rw [isDead, isDead, entryFrame, entryFrame, takes.start]
    rfl
  have handlers : r.code.handlers.flatMap (·.trim (a.again r).deadRanges) = r.code.handlers := by
    rw [ranges, rebuilt_handlers ok]
    have trimmed (h' : Handler) (there : h' ∈ (a.buried code).handlers) :
        h'.trim a.deadRanges = [h'] := by
      obtain ⟨h, _, there⟩ := List.mem_flatMap.1 there
      exact Handler.trim_of_mem_trim found.explored.deadRanges_sorted found.explored.deadRanges_proper there
    rw [List.flatMap_congr trimmed, List.flatMap_singleton']
  have deep : (if !(a.again r).deadBlocks.isEmpty ∧ r.code.maxStack = 0 then 1 else r.code.maxStack) =
      r.code.maxStack := by
    rw [empty]
    split
    next shallow =>
      rw [maxStack] at shallow ⊢
      by_cases zero : code.maxStack = 0
      · rw [if_pos ⟨shallow.1, zero⟩]
      · rw [if_neg fun both => zero both.2] at shallow
        exact absurd shallow.2 zero
    next => rfl
  change { r.code with
    maxStack := if !(a.again r).deadBlocks.isEmpty ∧ r.code.maxStack = 0 then 1 else r.code.maxStack
    bytes := Block.buryOnto (a.again r).isDead [] (a.again r).blocks r.code.bytes
    handlers := r.code.handlers.flatMap (·.trim (a.again r).deadRanges) } = r.code
  rw [deep, bytes, handlers]

end Found

theorem adds_tableOnto_length (initial : Frame) (frames : List (Nat × Frame)) (done : StackMapTable)
    (previous : Option (Nat × StoredFrame)) : Pool.Adds (tableOnto initial done previous frames)
      fun _ table => table.length = done.length + frames.length := by
  induction frames generalizing done previous with
  | nil =>
    refine (Pool.Adds.pure _).imp ?_
    rintro pool table rfl
    simp
  | cons p frames ih =>
    have count (pool : Pool) (table : StackMapTable) (entry : StackMapFrame)
        (length : table.length = (entry :: done).length + frames.length) :
        table.length = done.length + (p :: frames).length := by
      simp only [List.length_cons] at length ⊢
      omega
    cases previous with
    | none =>
      refine ((StoredFrame.adds_store p.2).bind fun stored => (StoredFrame.adds_store initial).bind
        fun start => ih (stored.compress (UInt16.ofNat p.1) start :: done) (some (p.1, stored))).imp ?_
      rintro pool table ⟨stored, _, start, _, length⟩
      exact count pool table _ length
    | some last =>
      refine ((StoredFrame.adds_store p.2).bind fun stored => ih
        (stored.compress (UInt16.ofNat (p.1 - last.1 - 1)) last.2 :: done) (some (p.1, stored))).imp ?_
      rintro pool table ⟨stored, _, length⟩
      exact count pool table _ length

theorem adds_adding_counted (a : Analysis) : Pool.Adds a.adding fun pool (frames, written) =>
    frames = a.frames.length ∧ (written = none ↔ a.frames = []) ∧
      ∀ t, written = some t → t.hasName pool StackMapTable.attributeName = true := by
  refine ((adds_tableOnto_length a.initial a.frames [] none).bind fun table =>
    (adds_tableAttribute table).bind fun written => .pure (table.length, written)).imp ?_
  rintro pool _ ⟨table, length, written, named, rfl⟩
  have length : table.length = a.frames.length := by simpa using length
  have empty : table = [] ↔ a.frames = [] := by
    rw [← List.length_eq_zero_iff, length, List.length_eq_zero_iff]
  cases written with
  | none => exact ⟨length, iff_of_true rfl (empty.1 named), fun t same => nomatch same⟩
  | some t =>
    refine ⟨length, iff_of_false nofun (named.1 ∘ empty.2), fun t' same => ?_⟩
    cases same
    exact named.2.hasName

theorem adds_adding_named (a : Analysis) : Pool.Adds a.adding fun pool (_, written) =>
    match written with
    | none => a.frames = []
    | some t => t.hasName pool StackMapTable.attributeName = true := by
  refine a.adds_adding_counted.imp ?_
  rintro pool ⟨_, written⟩ ⟨_, absent, named⟩
  cases written with
  | none => exact absent.1 rfl
  | some t => exact named t rfl

theorem rebuild_grows (built : pool.Built) (ok : a.rebuild code pool = .ok r) :
    r.pool.Built ∧ pool.Grows r.pool := by
  obtain ⟨_, _, added, _⟩ := rebuild_eq_ok.1 ok
  obtain ⟨later, grows, _⟩ := a.adds_adding_named built added
  exact ⟨later, grows⟩

end Analysis

theorem Code.withTable_withTable {code : Code} {pool : Pool} {t : Attribute}
    (named : t.hasName pool StackMapTable.attributeName = true) :
    (code.withTable pool (some t)).withTable pool (some t) = code.withTable pool (some t) := by
  obtain ⟨i, index, there⟩ := code.tableIndex?_withTable named
  generalize code.withTable pool (some t) = written at index there
  obtain ⟨inside, same⟩ := List.getElem?_eq_some_iff.1 there
  simp only [withTable, index, ← same, List.set_getElem_self]

namespace Analysis

structure Stays (a : Analysis) (r : Rebuilt) : Prop where
  keeps : a.KeepsTargets r
  single : a.frames = [] → r.code.tableIndex? r.pool = none

/-- What the analysis of the method that is written finds leads to the same method. -/
theorem Found.rebuild_again (found : a.Found H visits signature code pool g st) (rooted : H.IsRooted)
    (built : pool.Built) (ok : a.rebuild code pool = .ok r) (stays : a.Stays r) :
    (a.again r).rebuild r.code r.pool = .ok r := by
  obtain ⟨frames, written, added, code_eq, summary⟩ := rebuild_eq_ok.1 ok
  obtain ⟨later, _, again⟩ := a.adds_adding_named built added
  obtain ⟨added, named⟩ := again r.pool later (.refl _)
  have adding : (a.again r).adding = a.adding := by
    rw [adding, adding, table, table, found.frames_again rooted ok stays.keeps]
    rfl
  have dead := found.length_deadBlocks_again ok stays.keeps
  have empty : (a.again r).deadBlocks.isEmpty = a.deadBlocks.isEmpty := by
    rw [Bool.eq_iff_iff, List.isEmpty_iff_length_eq_zero, List.isEmpty_iff_length_eq_zero, dead]
  refine rebuild_eq_ok.2 ⟨frames, written, adding ▸ added, ?_, ?_⟩
  · rw [found.buried_again ok stays.keeps]
    cases written with
    | none => simp only [Code.withTable, stays.single named]
    | some t =>
      rw [code_eq]
      exact (Code.withTable_withTable named).symm
  · rw [summary, dead, empty]
    rfl

end Analysis

end StackMaps
