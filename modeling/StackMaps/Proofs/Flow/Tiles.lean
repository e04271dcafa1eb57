import StackMaps.Hierarchy.ClassGraph
import StackMaps.Proofs.Flow.Entered

/-! The blocks of a method tile its code and share out its instructions, and wherever the data flow can
lead a block starts. So whatever the analysis looks up is there, at every step of the loop and over any
source of class headers. -/

namespace StackMaps

open MonadAttach LawfulMonadAttach Relation

namespace Block

inductive Tiles (stop : Nat) : (start first : Nat) → List Located → List Block → Prop
  | nil {first : Nat} : Tiles stop stop first [] []
  | cons {b : Block} {rest : List Located} {blocks : List Block}
      (begins : b.code.head?.map (·.offset) = some b.start)
      (ends : b.code.getLast?.map (·.next) = some b.stop) (proper : b.start < b.stop)
      (further : Tiles stop b.stop (b.first + b.code.length) rest blocks) :
      Tiles stop b.start b.first (b.code ++ rest) (b :: blocks)

variable {leaders : Std.TreeSet Nat} {length total first : Nat} {code : List Located}
  {blocks : List Block} {b : Block}

theorem tiles_cons {current rest : List Located} {offset : Nat} {bytes : List UInt8}
    (begun : current ≠ []) (decodes : Decodes total offset bytes current.reverse)
    (further : Tiles length (offset + bytes.length) (first + current.length) rest blocks) :
    Tiles length offset first (current.reverse ++ rest)
      (ofReversed current first (offset + bytes.length) :: blocks) := by
  obtain ⟨head, tail, same⟩ := List.exists_cons_of_ne_nil (mt List.reverse_eq_nil_iff.1 begun)
  have first? : head.offset = offset := (same ▸ decodes).offset_eq
  have held : (ofReversed current first (offset + bytes.length)).Holds ∅ head tail :=
    ofReversed_holds same (by simp) _ _
  have start : (ofReversed current first (offset + bytes.length)).start = offset :=
    held.start.trans first?
  have proper := decodes.length_pos (mt List.reverse_eq_nil_iff.1 begun)
  obtain ⟨last, last?⟩ : ∃ last, current.reverse.getLast? = some last :=
    ⟨_, List.getLast?_eq_some_getLast (mt List.reverse_eq_nil_iff.1 begun)⟩
  generalize block : ofReversed current first (offset + bytes.length) = b at start ⊢
  have code : b.code = current.reverse := block ▸ rfl
  have begins : b.code.head?.map (·.offset) = some b.start := by
    rw [code, start, same, List.head?_cons, Option.map_some, first?]
  have ends : b.code.getLast?.map (·.next) = some b.stop := by
    rw [code, last?, Option.map_some, decodes.getLast?_next last?, ← block]
    rfl
  have forward : b.start < b.stop := by
    rw [start, ← block]
    exact Nat.lt_add_of_pos_right proper
  have onwards : Tiles length b.stop (b.first + b.code.length) rest blocks := by
    rw [code, List.length_reverse, ← block]
    exact further
  have tile := Tiles.cons begins ends forward onwards
  rw [start, code, ← block] at tile
  rw [← block]
  exact tile

theorem splitOnto_tiles {done : List Block} {current : List Located} {offset : Nat}
    {bytes : List UInt8} (begun : current ≠ [])
    (decodes : Decodes total offset bytes (current.reverse ++ code))
    (ends : length = offset + bytes.length) :
    ∃ more, splitOnto leaders length done first current code = done.reverse ++ more ∧
      Tiles length offset first (current.reverse ++ code) more := by
  induction code generalizing done first current offset bytes with
  | nil =>
    rw [List.append_nil] at decodes
    refine ⟨[ofReversed current first length], by simp [splitOnto], ?_⟩
    rw [ends]
    exact tiles_cons begun decodes .nil
  | cons located code ih =>
    rw [splitOnto]
    split
    · obtain ⟨front, back, rfl, own, later⟩ := decodes.split
      rw [List.length_append, ← Nat.add_assoc] at ends
      obtain ⟨more, result, tiles⟩ := @ih (first + current.length)
        (ofReversed current first located.offset :: done) [located] _ _ (by simp) later ends
      refine ⟨ofReversed current first located.offset :: more, by rw [result]; simp, ?_⟩
      rw [later.offset_eq]
      exact tiles_cons begun own tiles
    · obtain ⟨more, result, tiles⟩ := @ih first done (located :: current) _ _ (by simp)
        (by simpa using decodes) ends
      exact ⟨more, result, by simpa using tiles⟩

theorem split_tiles {bytes : List UInt8} (nonempty : code ≠ []) (decodes : Decodes total 0 bytes code) :
    Tiles bytes.length 0 0 code (split leaders bytes.length code) := by
  cases code with
  | nil => exact absurd rfl nonempty
  | cons head code =>
    have started : split leaders bytes.length (head :: code) =
        splitOnto leaders bytes.length [] 0 [head] code := by simp [split, splitOnto]
    rw [started]
    obtain ⟨more, result, tiles⟩ := @splitOnto_tiles leaders bytes.length total 0 code [] [head] 0 bytes
      (by simp) decodes (Nat.zero_add _).symm
    rw [result]
    exact tiles

theorem Tiles.slice {start stop : Nat} (tiles : Tiles stop start first code blocks) (member : b ∈ blocks) :
    ∃ before after, code = before ++ b.code ++ after ∧ b.first = first + before.length := by
  induction tiles with
  | nil => cases member
  | @cons b' rest blocks _ _ _ _ ih =>
    obtain rfl | member := List.mem_cons.1 member
    · exact ⟨[], rest, rfl, rfl⟩
    · obtain ⟨before, after, rfl, place⟩ := ih member
      refine ⟨b'.code ++ before, after, by simp, ?_⟩
      rw [place, List.length_append, Nat.add_assoc]

end Block

/-- The blocks of a method share out its code, control leaves a block only at its end, and a block starts
wherever control can go from there or an exception handler is. -/
structure Code.IsDivided (code : Code) (located : List Located) (blocks : List Block) : Prop where
  nonempty : blocks ≠ []
  held : ∀ b ∈ blocks, b.code ≠ []
  tiles : Block.Tiles code.bytes.length 0 0 located blocks
  instructions : blocks.flatMap (·.code) = located
  /-- The instructions of a block are those from its first one on. -/
  slice : ∀ b ∈ blocks, b.code = (located.drop b.first).take b.code.length
  /-- The last instruction of a block is there, and is the one before those of the next block. -/
  last : ∀ b ∈ blocks, ∃ last, b.code.getLast? = some last ∧
    located[b.first + b.code.length - 1]? = some last
  straight : ∀ b ∈ blocks, ∀ l ∈ b.code.dropLast, l.instruction.isBranch = false
  jumps : ∀ l ∈ located, ∀ target ∈ l.instruction.targets, ∃ b ∈ blocks, b.start = target
  handlers : ∀ h ∈ code.handlers, ∃ b ∈ blocks, b.start = h.target.toNat
  next : ∀ b ∈ blocks, ∀ last, b.code.getLast? = some last → last.next < code.bytes.length →
    ∃ b' ∈ blocks, b'.start = last.next

namespace Code.Holds

variable {code : Code} {located : List Located} {b : Block}

theorem divided (holds : code.Holds located) : code.IsDivided located (code.blocks located) := by
  have tiles : Block.Tiles code.bytes.length 0 0 located (code.blocks located) :=
    Block.split_tiles holds.code_ne_nil holds.decodes
  have leads {n : Nat} (there : ∃ l ∈ located, l.offset = n)
      (leader : n ∈ Block.leaders located code.handlers code.bytes.length) :
      ∃ b ∈ code.blocks located, b.start = n := by
    obtain ⟨l, there, rfl⟩ := there
    exact holds.cut.exists_block there (.inl leader)
  refine ⟨fun none => ?_, fun b => holds.block_code_ne_nil, tiles, holds.cut.flatMap_code,
    fun b member => ?_, fun b member => ?_, fun b => holds.straight, fun l there target jumps => ?_,
    fun h there => ?_, fun b member last last? inside => ?_⟩
  · have whole := holds.cut.flatMap_code
    rw [none] at whole
    exact holds.code_ne_nil whole.symm
  · obtain ⟨before, after, whole, place⟩ := tiles.slice member
    rw [place, Nat.zero_add, whole]
    simp
  · obtain ⟨before, after, whole, place⟩ := tiles.slice member
    have last? := List.getLast?_eq_some_getLast (holds.block_code_ne_nil member)
    refine ⟨_, last?, ?_⟩
    have size := List.length_pos_iff.2 (holds.block_code_ne_nil member)
    rw [← last?, List.getLast?_eq_getElem?, place, whole, List.append_assoc,
      List.getElem?_append_right (by omega), List.getElem?_append_left (by omega)]
    congr 1
    omega
  · exact leads (holds.targets l there target jumps) (Block.mem_leaders.2
      (.inr (.inl ⟨l, there, Instruction.isBranch_of_target jumps, .inl jumps⟩)))
  · exact leads (holds.handlers h there).target (Block.mem_leaders.2 (.inr (.inr ⟨h, there, rfl⟩)))
  · obtain ⟨_, _, _, _, _, stop, decodes⟩ := holds.block_decodes member
    have next := decodes.getLast?_next last?
    obtain ends | ⟨b', member', start⟩ := holds.cut.stop_cases member
    · omega
    · exact ⟨b', member', by omega⟩

end Code.Holds

def FlowGraph.Starts (g : FlowGraph) (n : Nat) : Prop := ∃ b, g.blocks[n]? = some b

def FlowGraph.Awaits (g : FlowGraph) (st : FlowState) : Prop :=
  ∀ n ∈ st.pending, g.Starts n ∧ n ∈ st.entry

/-- Whatever is looked up from a moment on is there: the blocks that wait for a visit, with their frames,
the last instruction of the block that is visited, and the blocks that frames are about to arrive at. -/
def FlowGraph.Finds (g : FlowGraph) : Moment → Prop
  | .between st => g.Awaits st
  | .before b _ _ st => g.Awaits st ∧ g.blocks[b.start]? = some b ∧ ∃ last, b.code.getLast? = some last
  | .raising b _ _ _ clauses st => g.Awaits st ∧ g.blocks[b.start]? = some b ∧
      (∃ last, b.code.getLast? = some last) ∧ ∀ c ∈ clauses, g.Starts c.target
  | .raised b _ _ _ c clauses st => g.Awaits st ∧ g.blocks[b.start]? = some b ∧
      (∃ last, b.code.getLast? = some last) ∧ ∀ c' ∈ c :: clauses, g.Starts c'.target
  | .leaving _ _ targets st => g.Awaits st ∧ ∀ target ∈ targets, g.Starts target

namespace FlowGraph

open FlowState

variable {m : Type → Type} [Monad m] [LawfulMonad m] [MonadAttach m] [LawfulMonadAttach m]
  {s : HeaderSource m} {g : FlowGraph} {st st' : FlowState} {f initial : Frame}
  {moment moment' : Moment} {target : Nat}

theorem Awaits.arrive (awaits : g.Awaits st) (starts : g.Starts target)
    (arrives : CanReturn (st.arrive s target f) st') : g.Awaits st' := by
  have assigned (f : Frame) : g.Awaits (st.assign target f) := by
    intro n waits
    obtain rfl | waits := mem_pending_assign.1 waits
    · exact ⟨starts, mem_assign.2 (.inl rfl)⟩
    · exact (awaits n waits).imp_right fun there => mem_assign.2 (.inr there)
  obtain ⟨_, rfl⟩ | ⟨_, _, _, _, ⟨_, rfl⟩ | ⟨_, rfl⟩⟩ := arrive_returns arrives
  · exact assigned _
  · exact awaits
  · exact assigned _

theorem finds_move (closed : g.IsClosed) (move : g.Moves s moment moment') (finds : g.Finds moment) :
    g.Finds moment' := by
  cases move with
  | visit next block entry =>
    obtain rfl := closed.start _ _ block
    have last := List.getLast?_eq_some_getLast (closed.nonempty _ _ block)
    exact ⟨fun n waits => finds n (next ▸ List.mem_cons_of_mem _ waits), block, _, last⟩
  | skip next => exact fun n waits => finds n (next ▸ List.mem_cons_of_mem _ waits)
  | check step =>
    obtain ⟨awaits, block, last⟩ := finds
    exact ⟨awaits, block, last, fun c there => closed.clauses c (List.mem_filter.1 there).1⟩
  | @raise _ _ _ _ _ _ st _ arrives =>
    obtain ⟨awaits, block, last, starts⟩ := finds
    have awaits : g.Awaits (st.see 1) := awaits
    exact ⟨awaits.arrive (starts _ List.mem_cons_self) arrives, block, last, starts⟩
  | raiseAfter arrives =>
    obtain ⟨awaits, block, last, starts⟩ := finds
    obtain ⟨first, starts⟩ := List.forall_mem_cons.1 starts
    exact ⟨awaits.arrive first arrives, block, last, starts⟩
  | goOn => exact ⟨finds.1, finds.2.1, finds.2.2.1⟩
  | leave last? successors =>
    obtain ⟨awaits, block, _⟩ := finds
    exact ⟨awaits, closed.successors _ _ _ _ block last? successors⟩
  | pass arrives =>
    obtain ⟨awaits, starts⟩ := finds
    obtain ⟨first, starts⟩ := List.forall_mem_cons.1 starts
    exact ⟨awaits.arrive first arrives, starts⟩
  | left | empty => exact finds.1

theorem finds_of_meets (closed : g.IsClosed) (meets : g.Meets s initial moment) : g.Finds moment := by
  induction meets with
  | refl =>
    intro n waits
    obtain rfl := List.mem_singleton.1 waits
    exact ⟨closed.first, mem_entry.2 ⟨initial, by rw [getElem?_entering, if_pos rfl]⟩⟩
  | tail _ move ih => exact finds_move closed move ih

end FlowGraph

/-- Where code decodes and its exception handlers are of use, its blocks share it out, a block starts
wherever control can go, and the analysis finds whatever it looks up, at every step that it can get to. -/
theorem Code.blocks_suffice {m : Type → Type} [Monad m] [LawfulMonad m] [MonadAttach m]
    [LawfulMonadAttach m] {s : HeaderSource m} {code : Code} {located : List Located}
    (decodes : code.instructions = .ok located) :
    code.IsDivided located (code.blocks located) ∧
      ∀ signature pool clauses initial moment, code.handlers.mapM (·.clause pool) = .ok clauses →
        (FlowGraph.ofInstructions signature code pool located clauses).Meets s initial moment →
        (FlowGraph.ofInstructions signature code pool located clauses).Finds moment := by
  have holds := Code.instructions_eq_ok.1 decodes
  exact ⟨holds.divided, fun _ _ _ _ _ caught meets =>
    FlowGraph.finds_of_meets (holds.isClosed caught) meets⟩

def forkCode : Code := ⟨1, 0, [0x03, 0x99, 0, 4, 0x00, 0xb1], [⟨0, 4, 4, none⟩], []⟩

def forkBlock : Block :=
  ⟨0, 4, 0, [⟨0, 1, .straight (.const .int 0)⟩, ⟨1, 4, .branch (.ifInt .eq 5)⟩]⟩

theorem Code.blocks_suffice_fork : ∃ located moment,
    forkCode.instructions = .ok located ∧
    (forkCode.blocks located).map (fun b => (b.start, b.stop)) = [(0, 4), (4, 5), (5, 6)] ∧
    forkCode.IsDivided located (forkCode.blocks located) ∧
    moment = .before forkBlock ⟨[], []⟩ forkBlock.code { FlowState.entering ⟨[], []⟩ with pending := [] } ∧
    FlowGraph.Finds (.ofInstructions ⟨.object, "fork", ⟨[], none⟩, true⟩ forkCode .empty located
      [⟨0, 4, 4, .object .throwable⟩]) moment := by
  let located : List Located :=
    forkBlock.code ++ [⟨4, 5, .straight .nop⟩, ⟨5, 6, .branch .returnVoid⟩]
  have decodes : forkCode.instructions = .ok located := by decide +kernel
  have block : (FlowGraph.ofInstructions ⟨.object, "fork", ⟨[], none⟩, true⟩ forkCode .empty located
      [⟨0, 4, 4, .object .throwable⟩]).blocks[0]? = some forkBlock :=
    (Code.instructions_eq_ok.1 decodes).getElem?_blocks.2 ⟨by decide +kernel, rfl⟩
  obtain ⟨divided, finds⟩ := Code.blocks_suffice
    (s := (ClassGraph.standard.hierarchy .empty).source) decodes
  refine ⟨located, _, decodes, by decide +kernel, divided, rfl, finds _ _ _ ⟨[], []⟩ _ rfl ?_⟩
  exact .single (.visit rfl block FlowState.getElem?_entering)

end StackMaps
