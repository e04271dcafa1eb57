import StackMaps.Proofs.Analysis.Sound
import StackMaps.Proofs.Rebuild.Frames

/-! The table of a method says what the analysis found: it is read as the frames of the blocks that
need one. -/

namespace StackMaps

variable {H : Hierarchy} {l : FixedLoader} {graph : ClassGraph} {visits : Nat}
  {signature : Signature} {code : Code} {pool : Pool} {a : Analysis} {g : FlowGraph}
  {st : FlowState} {r : Rebuilt}

theorem rebuild_lazily {s : HeaderSource (StateT ClassGraph Id)} (lazily : s.Lazily l H)
    (signature : Signature) (code : Code) (pool : Pool) :
    Follow l H (rebuild s signature code pool) (rebuild H.source signature code pool) :=
  .bind (Analysis.run_lazily lazily signature code pool) fun _ => .ofExcept _

theorem rebuild_eq_ok :
    graph.answer (rebuild (graph.source l.loader) signature code pool) = .ok r ↔
      ∃ a, graph.answer (Analysis.run (graph.source l.loader) signature code pool) = .ok a ∧
        a.rebuild code pool = .ok r := by
  rw [ClassGraph.answer_eq (rebuild_lazily (HeaderSource.lazily_source graph) signature code pool),
    ClassGraph.answer_eq (Analysis.run_lazily (HeaderSource.lazily_source graph) signature code pool),
    rebuild, answer_bind, bind_eq_ok]
  rfl

namespace Attribute

variable {name : String} {body : List UInt8} {t : Attribute}

theorem hasName_iff :
    t.hasName pool name = true ↔ pool.get? t.name = some (.utf8 (ModifiedUtf8.encode name)) := by
  unfold hasName Pool.utf8Bytes
  split
  next bytes ok =>
    split at ok
    next there =>
      cases ok
      rw [there]
      simp
    next => cases ok
  next e failed =>
    split at failed
    next => cases failed
    next other => exact ⟨nofun, fun there => absurd there (other _)⟩

structure Is (pool : Pool) (name : String) (body : List UInt8) (t : Attribute) : Prop where
  name : pool.get? t.name = some (.utf8 (ModifiedUtf8.encode name))
  body : t.body = body

theorem Is.hasName (is : t.Is pool name body) : t.hasName pool name = true := hasName_iff.2 is.name

theorem adds_adding (name : String) (body : List UInt8) :
    Pool.Adds (adding name body) fun pool t => t.Is pool name body := by
  refine ((Pool.adds_indexOf _).bind fun i => .pure (Attribute.mk i body)).imp ?_
  rintro pool _ ⟨i, found, rfl⟩
  exact ⟨found, rfl⟩

theorem run_adding {i : ConstantIndex} (built : pool.Built)
    (known : pool.get? i = some (.utf8 (ModifiedUtf8.encode name))) :
    ∃ t, (adding name body).run pool = (.ok t, pool) ∧ t.Is pool name body := by
  obtain ⟨j, index⟩ := built.exists_index known
  refine ⟨⟨j, body⟩, Pool.run_bind_eq_ok.2 ⟨j, pool, Pool.indexOf_known index, rfl⟩, ?_, rfl⟩
  exact built.get?_of_index index

end Attribute

namespace Code

variable {t : Attribute}

theorem tableIndex?_withTable (named : t.hasName pool StackMapTable.attributeName = true) :
    ∃ i, (code.withTable pool (some t)).tableIndex? pool = some i ∧
      (code.withTable pool (some t)).attributes[i]? = some t := by
  unfold withTable
  split
  next i _ old same =>
    cases same
    obtain ⟨inside, _, others⟩ := List.findIdx?_eq_some_iff_getElem.1 old
    refine ⟨i, List.findIdx?_eq_some_iff_getElem.2 ⟨by simpa using inside, by simpa using named, ?_⟩,
      by simp [inside]⟩
    intro j less
    rw [List.getElem_set_ne (by omega)]
    exact others j less
  next same => cases same
  next _ old same =>
    cases same
    refine ⟨code.attributes.length, ?_, by simp⟩
    rw [tableIndex?] at old ⊢
    simp [List.findIdx?_append, old, named]
  next same => cases same

theorem maxLocals_withTable (table : Option Attribute) :
    (code.withTable pool table).maxLocals = code.maxLocals := by
  unfold withTable
  split <;> rfl

end Code

namespace Analysis

theorem adds_tableAttribute (table : StackMapTable) :
    Pool.Adds (tableAttribute table) fun pool written => match written with
      | none => table = []
      | some t => table ≠ [] ∧ t.Is pool StackMapTable.attributeName table.encode := by
  unfold tableAttribute
  split
  next empty =>
    refine (Pool.Adds.pure none).imp ?_
    rintro pool _ rfl
    exact List.isEmpty_iff.1 empty
  next some =>
    refine ((Attribute.adds_adding _ _).bind fun t => .pure (Option.some t)).imp ?_
    rintro pool _ ⟨t, is, rfl⟩
    exact ⟨fun empty => some (by simp [empty]), is⟩

def adding (a : Analysis) : Pool.Adding (Nat × Option Attribute) := do
  let table ← a.table
  return (table.length, ← tableAttribute table)

def buried (a : Analysis) (code : Code) : Code :=
  { code with
    maxStack := if !a.deadBlocks.isEmpty ∧ code.maxStack = 0 then 1 else code.maxStack
    bytes := Block.buryOnto a.isDead [] a.blocks code.bytes
    handlers := code.handlers.flatMap (·.trim (a.deadBlocks.map fun b => (b.start, b.stop))) }

def rebuilt (a : Analysis) (code : Code) :
    Except Error (Nat × Option Attribute) × Pool → Except Error Rebuilt
  | (.error e, _) => .error e
  | (.ok (frames, written), pool) => .ok
    { code := (a.buried code).withTable pool written
      pool
      summary := ⟨frames, a.deadBlocks.length,
        if a.deadBlocks.isEmpty then a.maxStack else max a.maxStack 1⟩ }

theorem rebuild_eq_ok : a.rebuild code pool = .ok r ↔ ∃ frames written,
    a.adding.run pool = (.ok (frames, written), r.pool) ∧
      r.code = (a.buried code).withTable r.pool written ∧
      r.summary = ⟨frames, a.deadBlocks.length,
        if a.deadBlocks.isEmpty then a.maxStack else max a.maxStack 1⟩ := by
  have steps : a.rebuild code pool = a.rebuilt code (a.adding.run pool) := rfl
  rw [steps]
  constructor
  · intro ok
    rcases added : a.adding.run pool with ⟨e | ⟨frames, written⟩, pool'⟩
    · rw [added] at ok
      cases ok
    · rw [added] at ok
      cases ok
      exact ⟨frames, written, rfl, rfl, rfl⟩
  · rintro ⟨frames, written, added, code, summary⟩
    rw [added, rebuilt, ← code, ← summary]

/-- What the table and its attribute are, in the pool that their constants were added to. -/
structure Tabled (a : Analysis) (signature : Signature) (maxLocals : Nat) (pool : Pool)
    (frames : Nat) (written : Option Attribute) : Prop where
  count : frames = a.frames.length
  absent : written = none ↔ a.frames = []
  present : ∀ t, written = some t → t.hasName pool StackMapTable.attributeName = true ∧
    ∃ table, StackMapTable.ofBody t.body = .ok table ∧
      table.replay pool maxLocals none (signature.entryTypes.map FlowType.read) =
        some (a.frames.map fun (offset, f) => (offset, f.read maxLocals))

/-- Code of at most 65535 bytes whose stack is not too high has frames that a table can say. -/
theorem Found.canSay (found : a.Found H visits signature code pool g st)
    (short : code.bytes.length ≤ 65535) (low : a.maxStack ≤ 65535) : StackMapTable.CanSay a.frames := by
  have count := found.length_frames
  refine ⟨by omega, StackMapTable.canSayFrom_of_small fun p there => ⟨?_, ?_⟩⟩
  · have inside := found.offset_lt there
    omega
  · obtain regular | dead := found.frame_cases there
    · have height := regular.stack
      omega
    · rw [dead]
      decide

theorem Found.adds_adding (found : a.Found H visits signature code pool g st)
    (can : StackMapTable.CanSay a.frames) :
    Pool.Adds a.adding fun pool (frames, written) =>
      a.Tabled signature code.maxLocals.toNat pool frames written := by
  have entries : (Frame.values a.initial.locals).map FlowType.read =
      signature.entryTypes.map FlowType.read := by
    rw [Signature.initialFrame_eq found.initial, Frame.values_fill signature.usable_entryTypes]
  obtain ⟨few, can⟩ := can
  have regular (p : Nat × Frame) (there : p ∈ a.frames) : Paired p.2.locals ∧
      p.2.locals.length ≤ code.maxLocals.toNat := by
    obtain regular | dead := found.frame_cases there
    · exact ⟨regular.paired, Nat.le_of_eq regular.locals⟩
    · rw [dead]
      exact ⟨nofun, Nat.zero_le _⟩
  have onto := adds_tableOnto a.initial code.maxLocals.toNat_lt (frames_sorted found)
    (fun p there => (regular p there).1) (fun p there => (regular p there).2) [] none can (fun _ => nofun)
  refine (onto.bind fun table => (adds_tableAttribute table).bind fun written =>
    .pure (table.length, written)).imp ?_
  rintro pool _ ⟨table, ⟨more, same, size, fits, replays⟩, written, named, rfl⟩
  obtain rfl : table = more := same
  have replayed := replays _ entries
  have decoded : StackMapTable.ofBody table.encode = .ok table :=
    StackMapTable.ofBody_encode (by omega) fits
  have empty : table = [] ↔ a.frames = [] := by
    rw [← List.length_eq_zero_iff, size, List.length_eq_zero_iff]
  cases written with
  | none =>
    refine ⟨size, iff_of_true rfl (empty.1 named), fun t same => nomatch same⟩
  | some t =>
    obtain ⟨some, is⟩ := named
    refine ⟨size, iff_of_false nofun (some ∘ empty.2), fun t' same => ?_⟩
    cases same
    exact ⟨is.hasName, table, is.body ▸ decoded, replayed⟩

structure Written (a : Analysis) (signature : Signature) (code : Code) (pool : Pool) (r : Rebuilt) :
    Prop where
  built : r.pool.Built
  grows : pool.Grows r.pool
  maxLocals : r.code.maxLocals = code.maxLocals
  count : r.summary.frames = a.frames.length
  table : a.frames ≠ [] → r.code.readTable r.pool signature =
    some (a.frames.map fun (offset, f) => (offset, f.read code.maxLocals.toNat))

theorem Found.written_of_canSay (found : a.Found H visits signature code pool g st)
    (built : pool.Built) (can : StackMapTable.CanSay a.frames) (ok : a.rebuild code pool = .ok r) :
    a.Written signature code pool r := by
  obtain ⟨frames, written, added, code_eq, summary⟩ := rebuild_eq_ok.1 ok
  obtain ⟨later, grows, again⟩ := found.adds_adding can built added
  have tabled := (again r.pool later (.refl _)).2
  have maxLocals : r.code.maxLocals = code.maxLocals := by
    rw [code_eq, Code.maxLocals_withTable]
    rfl
  refine ⟨later, grows, maxLocals, by rw [summary]; exact tabled.count, fun some => ?_⟩
  cases written with
  | none => exact absurd (tabled.absent.1 rfl) some
  | some t =>
    obtain ⟨named, table, decoded, replayed⟩ := tabled.present t rfl
    obtain ⟨i, index, there⟩ := (a.buried code).tableIndex?_withTable named
    rw [← code_eq] at index there
    simp only [Code.readTable, index, there, decoded, Option.bind_eq_bind, Option.bind_some, maxLocals]
    exact replayed

theorem Found.written (found : a.Found H visits signature code pool g st) (built : pool.Built)
    (short : code.bytes.length ≤ 65535) (ok : a.rebuild code pool = .ok r)
    (low : r.summary.maxStack ≤ 65535) : a.Written signature code pool r := by
  have lower : a.maxStack ≤ r.summary.maxStack := by
    obtain ⟨_, _, _, _, summary⟩ := rebuild_eq_ok.1 ok
    rw [summary]
    simp only
    split
    · exact Nat.le_refl _
    · exact Nat.le_max_left _ _
  exact found.written_of_canSay built (found.canSay short (Nat.le_trans lower low)) ok

end Analysis

/-- The table of a method is read as the frames that the analysis found where frames are needed, in
the order of their offsets. A frame of code that is never reached has no locals, so that all of
them are read as unusable. -/
theorem rebuild_table (built : pool.Built) (short : code.bytes.length ≤ 65535)
    (ok : graph.answer (rebuild (graph.source l.loader) signature code pool) = .ok r)
    (low : r.summary.maxStack ≤ 65535) :
    ∃ a, graph.answer (Analysis.run (graph.source l.loader) signature code pool) = .ok a ∧
      (∀ p ∈ a.frames, p.2.locals.length = code.maxLocals.toNat ∨ p.2 = .dead) ∧
      (a.frames ≠ [] → r.code.readTable r.pool signature =
        some (a.frames.map fun (offset, f) => (offset, f.read code.maxLocals.toNat))) := by
  obtain ⟨a, run, rebuilt⟩ := rebuild_eq_ok.1 ok
  obtain ⟨visits, g, st, found⟩ := Analysis.found_of_run run
  have written := found.written built short rebuilt low
  exact ⟨a, run, fun p there => (found.frame_cases there).imp_left (·.locals), written.table⟩

/-- A method that drops an argument, with code behind its end. -/
def litterCode : Code :=
  { Analysis.dropCode with bytes := Analysis.dropCode.bytes ++ [0x00, 0xb1] }

def litterFrame (stack : List FlowType) : Frame :=
  ⟨[.object (.object .integer), .object (.object .double)], stack⟩

theorem rebuild_table_litter : ∃ r, ClassGraph.standard.answer (rebuild
      (ClassGraph.standard.source FixedLoader.empty.loader) Analysis.dropSignature litterCode .empty) =
        .ok r ∧
    r.summary.maxStack ≤ 65535 ∧
    ∃ a, ClassGraph.standard.answer (Analysis.run (ClassGraph.standard.source FixedLoader.empty.loader)
        Analysis.dropSignature litterCode .empty) = .ok a ∧
      a.frames = [(8, litterFrame []), (9, litterFrame [.object (.object .object)]), (11, .dead)] ∧
      r.code.readTable r.pool Analysis.dropSignature =
        some (a.frames.map fun (offset, f) => (offset, f.read 2)) := by
  let rebuilt := ClassGraph.standard.answer (rebuild
    (ClassGraph.standard.source FixedLoader.empty.loader) Analysis.dropSignature litterCode .empty)
  let analyzed := ClassGraph.standard.answer (Analysis.run
    (ClassGraph.standard.source FixedLoader.empty.loader) Analysis.dropSignature litterCode .empty)
  have low : (rebuilt.toOption.map fun r => decide (r.summary.maxStack ≤ 65535)) = some true := by
    decide +kernel
  have frames : analyzed.toOption.map Analysis.frames =
      some [(8, litterFrame []), (9, litterFrame [.object (.object .object)]), (11, .dead)] := by
    decide +kernel
  obtain ⟨r, ok, low⟩ := Option.map_eq_some_iff.1 low
  obtain ⟨a, run, frames⟩ := Option.map_eq_some_iff.1 frames
  have ok : rebuilt = .ok r := toOption_eq_some.1 ok
  have run : analyzed = .ok a := toOption_eq_some.1 run
  have low : r.summary.maxStack ≤ 65535 := of_decide_eq_true low
  obtain ⟨a', run', _, table⟩ := rebuild_table Pool.built_empty (by decide) ok low
  obtain rfl := Except.ok.inj (run.symm.trans run')
  exact ⟨r, ok, low, a, run, frames, table (by simp [frames])⟩

/-- A method that returns at once and goes on behind that. -/
def leaveSignature : Signature := ⟨.object, "leave", ⟨[], none⟩, true⟩

def leaveCode : Code := ⟨0, 1, [0xb1, 0x00, 0xb1], [], []⟩

/-- The table does not say of unreachable code that it has no locals. -/
theorem readTable_ne_frames : ¬ ∀ (l : FixedLoader) (graph : ClassGraph) (signature : Signature)
    (code : Code) (pool : Pool) (r : Rebuilt) (a : Analysis), pool.Built →
    code.bytes.length ≤ 65535 →
    graph.answer (rebuild (graph.source l.loader) signature code pool) = .ok r →
    r.summary.maxStack ≤ 65535 →
    graph.answer (Analysis.run (graph.source l.loader) signature code pool) = .ok a →
    a.frames ≠ [] → r.code.readTable r.pool signature = some (a.frames.map fun (offset, f) =>
      (offset, ⟨f.locals.map FlowType.read, f.stack.reverse.map FlowType.read⟩)) := by
  intro all
  let rebuilt := ClassGraph.standard.answer (rebuild
    (ClassGraph.standard.source FixedLoader.empty.loader) leaveSignature leaveCode .empty)
  let analyzed := ClassGraph.standard.answer (Analysis.run
    (ClassGraph.standard.source FixedLoader.empty.loader) leaveSignature leaveCode .empty)
  have read : rebuilt.toOption.map (fun r => (r.summary.maxStack,
      r.code.readTable r.pool leaveSignature)) =
        some (1, some [(1, ⟨[.top], [.object (.object .throwable)]⟩)]) := by decide +kernel
  have frames : analyzed.toOption.map Analysis.frames = some [(1, .dead)] := by decide +kernel
  obtain ⟨r, ok, read⟩ := Option.map_eq_some_iff.1 read
  obtain ⟨a, run, frames⟩ := Option.map_eq_some_iff.1 frames
  have ok : rebuilt = .ok r := toOption_eq_some.1 ok
  have run : analyzed = .ok a := toOption_eq_some.1 run
  obtain ⟨low, table⟩ := Prod.mk.inj read
  have same := all .empty .standard leaveSignature leaveCode .empty r a Pool.built_empty (by decide) ok
    (by omega) run (by simp [frames])
  rw [table, frames] at same
  cases same

end StackMaps
