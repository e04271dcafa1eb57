import StackMaps.Proofs.Flow.Entered
import StackMaps.Proofs.Rebuild.Output

/-! What a rebuild changes, and that it changes nothing else: constants are appended to the pool, and
the code of one method differs in its unreachable blocks, in what handlers cover of them, in room on
the stack for what they throw, and in its stack map table. -/

namespace StackMaps

def FlowGraph.Dead (g : FlowGraph) (offset : Nat) : Prop :=
  ∃ (n : Nat) (b : Block), g.blocks[n]? = some b ∧ ¬ g.Reaches n ∧ b.start ≤ offset ∧ offset < b.stop

namespace Handler

def Covers (h : Handler) (offset : Nat) : Prop := h.start.toNat ≤ offset ∧ offset < h.stop.toNat

structure Cut (dead : Nat → Prop) (h : Handler) (pieces : List Handler) : Prop where
  alike : ∀ h' ∈ pieces, h'.target = h.target ∧ h'.catchType = h.catchType
  covers : ∀ offset, (∃ h' ∈ pieces, h'.Covers offset) ↔ h.Covers offset ∧ ¬ dead offset
  nonempty : ∀ h' ∈ pieces, h'.start < h'.stop
  apart : pieces.Pairwise fun h' h'' => h'.stop < h''.start

end Handler

namespace Code

/-- Of the nested attributes only the first stack map table is replaced or taken away; where there is
none, one may be added behind the others. -/
def KeepsOthers (code code' : Code) (pool pool' : Pool) : Prop :=
  match code.tableIndex? pool with
  | some i => code'.attributes = code.attributes.eraseIdx i ∨
    ∃ t, t.hasName pool' StackMapTable.attributeName = true ∧ code'.attributes = code.attributes.set i t
  | none => code'.attributes = code.attributes ∨
    ∃ t, t.hasName pool' StackMapTable.attributeName = true ∧ code'.attributes = code.attributes ++ [t]

/-- What a rebuild may change in the code of a method. -/
structure Confined (g : FlowGraph) (pool pool' : Pool) (code code' : Code) : Prop where
  maxStack : code'.maxStack = code.maxStack ∨
    code.maxStack = 0 ∧ code'.maxStack = 1 ∧ ∃ offset, g.Dead offset
  maxLocals : code'.maxLocals = code.maxLocals
  length : code'.bytes.length = code.bytes.length
  bytes : ∀ offset, ¬ g.Dead offset → code'.bytes[offset]? = code.bytes[offset]?
  handlers : ∃ pieces, List.Forall₂ (Handler.Cut g.Dead) code.handlers pieces ∧
    code'.handlers = pieces.flatten
  attributes : code.KeepsOthers code' pool pool'

end Code

namespace Handler

variable {start stop : Nat} {dead : List (Nat × Nat)}

theorem livePieces_sorted (sorted : dead.Pairwise fun d d' => d.2 ≤ d'.1)
    (proper : ∀ d ∈ dead, d.1 < d.2) :
    (livePieces start stop dead).Pairwise fun p p' => p.2 < p'.1 := by
  induction dead generalizing start with
  | nil =>
    rw [livePieces]
    split
    · exact List.pairwise_singleton _ _
    · exact .nil
  | cons d dead ih =>
    obtain ⟨deadStart, deadStop⟩ := d
    obtain ⟨_, sorted⟩ := List.pairwise_cons.1 sorted
    obtain ⟨own, proper⟩ := List.forall_mem_cons.1 proper
    rw [livePieces]
    split
    · exact ih sorted proper
    · split
      · refine .cons (fun p later => ?_) (ih sorted proper)
        exact Nat.lt_of_lt_of_le own (livePieces_piece sorted proper later).start_le
      · exact ih sorted proper

theorem toNat_piece {h : Handler} (sorted : dead.Pairwise fun d d' => d.2 ≤ d'.1)
    (proper : ∀ d ∈ dead, d.1 < d.2) {p : Nat × Nat}
    (there : p ∈ livePieces h.start.toNat h.stop.toNat dead) :
    (UInt16.ofNat p.1).toNat = p.1 ∧ (UInt16.ofNat p.2).toNat = p.2 := by
  have piece := livePieces_piece sorted proper there
  have nonempty := piece.nonempty
  have le_stop := piece.le_stop
  have small := h.stop.toNat_lt
  exact ⟨UInt16.toNat_ofNat_of_lt' (by simp only [UInt16.size]; omega),
    UInt16.toNat_ofNat_of_lt' (by simp only [UInt16.size]; omega)⟩

/-- A handler is trimmed to what is left of it. -/
theorem cut_trim (h : Handler) (sorted : dead.Pairwise fun d d' => d.2 ≤ d'.1)
    (proper : ∀ d ∈ dead, d.1 < d.2) :
    Cut (fun offset => ∃ d ∈ dead, d.1 ≤ offset ∧ offset < d.2) h (h.trim dead) where
  alike h' there := (mem_trim sorted proper there).2
  covers offset := by
    constructor
    · rintro ⟨h', there, first, last⟩
      obtain ⟨piece, _⟩ := mem_trim sorted proper there
      refine ⟨⟨Nat.le_trans piece.start_le first, Nat.lt_of_lt_of_le last piece.le_stop⟩, ?_⟩
      rintro ⟨d, member, inside⟩
      have := piece.apart d member
      omega
    · rintro ⟨covers, live⟩
      have live : ∀ d ∈ dead, ¬ (d.1 ≤ offset ∧ offset < d.2) := fun d member inside =>
        live ⟨d, member, inside⟩
      have count := @length_filter_livePieces h.start.toNat h.stop.toNat dead proper offset live
      have inside : h.start.toNat ≤ offset ∧ offset < h.stop.toNat := covers
      rw [if_pos inside] at count
      obtain ⟨p, there⟩ := List.exists_mem_of_length_pos (Nat.lt_of_lt_of_eq Nat.one_pos count.symm)
      obtain ⟨piece, held⟩ := List.mem_filter.1 there
      obtain ⟨first, second⟩ := toNat_piece sorted proper piece
      refine ⟨_, List.mem_map.2 ⟨p, piece, rfl⟩, ?_⟩
      rw [Covers, first, second]
      simpa using held
  nonempty h' there := (mem_trim sorted proper there).1.nonempty
  apart := by
    rw [trim, List.pairwise_map]
    refine (livePieces_sorted sorted proper).imp_of_mem fun {p p'} there there' before => ?_
    rw [UInt16.lt_iff_toNat_lt, (toNat_piece sorted proper there).2, (toNat_piece sorted proper there').1]
    exact before

end Handler

theorem Block.Pieces.getElem?_bury {total offset : Nat} (isDead : Block → Bool) {blocks : List Block}
    {bytes : List UInt8} (pieces : Pieces total offset bytes blocks) {n : Nat}
    (live : ∀ b ∈ blocks, isDead b = true → ¬ (b.start ≤ offset + n ∧ offset + n < b.stop)) :
    (buryOnto isDead [] blocks bytes)[n]? = bytes[n]? := by
  induction pieces generalizing n with
  | nil => rfl
  | @cons b offset front back blocks start stop nonempty _ _ ih =>
    obtain ⟨head, live⟩ := List.forall_mem_cons.1 live
    have size := length_buriedPiece isDead start stop nonempty
    rw [bury_cons isDead _ _ start stop]
    by_cases inside : n < front.length
    · have kept : buriedPiece isDead b front = front :=
        if_neg fun dead => head dead ⟨by omega, by omega⟩
      rw [kept, List.getElem?_append_left inside, List.getElem?_append_left inside]
    · rw [List.getElem?_append_right (by omega), List.getElem?_append_right (by omega), size]
      exact ih fun b' there dead range => live b' there dead (by omega)

section

variable {pool pool' : Pool}

theorem Attribute.hasName_of_grows (built : pool.Built) (grows : pool.Grows pool') {t : Attribute}
    (named : ∃ k, pool.get? t.name = some k) (name : String) :
    t.hasName pool' name = t.hasName pool name := by
  obtain ⟨k, known⟩ := named
  rw [Bool.eq_iff_iff, hasName_iff, hasName_iff, grows.get? built known, known]

theorem findIdx?_hasName_of_grows (built : pool.Built) (grows : pool.Grows pool')
    {attributes : List Attribute} (named : ∀ t ∈ attributes, ∃ k, pool.get? t.name = some k)
    (name : String) :
    attributes.findIdx? (Attribute.hasName pool' name) =
      attributes.findIdx? (Attribute.hasName pool name) := by
  induction attributes with
  | nil => rfl
  | cons t attributes ih =>
    obtain ⟨first, named⟩ := List.forall_mem_cons.1 named
    rw [List.findIdx?_cons, List.findIdx?_cons, Attribute.hasName_of_grows built grows first, ih named]

end

namespace Analysis

variable {m : Type → Type} [Monad m] [LawfulMonad m] [MonadAttach m] [LawfulMonadAttach m]
  {s : HeaderSource m} {signature : Signature} {code : Code} {pool : Pool} {a : Analysis}
  {g : FlowGraph} {st : FlowState} {r : Rebuilt}

namespace FoundBy

theorem dead_iff (found : a.FoundBy s signature code pool g st) (offset : Nat) :
    g.Dead offset ↔ ∃ d ∈ a.deadRanges, d.1 ≤ offset ∧ offset < d.2 := by
  have reached (b : Block) : a.entryFrame b = none ↔ ¬ g.Reaches b.start := by
    rw [← found.entry_iff, entryFrame, ← Option.ne_none_iff_exists', not_not]
  constructor
  · rintro ⟨n, b, block, dead, inside⟩
    obtain ⟨member, rfl⟩ := found.explored.getElem?_blocks.1 block
    exact ⟨_, mem_deadRanges.2 ⟨b, member, (reached b).2 dead, rfl⟩, inside⟩
  · rintro ⟨d, there, inside⟩
    obtain ⟨b, block, dead, rfl⟩ := mem_deadRanges.1 there
    exact ⟨b.start, b, found.explored.getElem?_blocks.2 ⟨block, rfl⟩, (reached b).1 dead, inside⟩

/-- A rebuild changes no more of the code of a method than it may. -/
theorem confined (found : a.FoundBy s signature code pool g st) (built : pool.Built)
    (named : ∀ t ∈ code.attributes, ∃ k, pool.get? t.name = some k)
    (ok : a.rebuild code pool = .ok r) : code.Confined g pool r.pool r.code := by
  obtain ⟨frames, written, added, same, _⟩ := rebuild_eq_ok.1 ok
  obtain ⟨later, grows, again⟩ := a.adds_adding_named built added
  obtain ⟨_, name⟩ := again r.pool later (.refl _)
  have pieces := found.explored.pieces
  have sorted := found.explored.deadRanges_sorted
  have proper := found.explored.deadRanges_proper
  obtain ⟨attributes, changed⟩ := (a.buried code).withTable_eq r.pool written
  constructor
  · rw [same, changed]
    simp only [buried]
    split
    next change =>
      refine .inr ⟨change.2, rfl, ?_⟩
      obtain ⟨b, dead⟩ := List.exists_mem_of_ne_nil a.deadBlocks (by simpa using change.1)
      have range : (b.start, b.stop) ∈ a.deadRanges := List.mem_map_of_mem dead
      exact ⟨b.start, (found.dead_iff _).2 ⟨_, range, Nat.le_refl _, proper _ range⟩⟩
    next => exact .inl rfl
  · exact rebuilt_maxLocals ok
  · rw [same, changed]
    exact pieces.length_bury a.isDead
  · intro offset live
    rw [same, changed]
    refine pieces.getElem?_bury a.isDead fun b block dead inside => ?_
    refine live ((found.dead_iff offset).2 ⟨_, mem_deadRanges.2 ⟨b, block, isDead_iff.1 dead, rfl⟩, ?_⟩)
    simpa using inside
  · refine ⟨code.handlers.map (·.trim a.deadRanges), ?_, ?_⟩
    · rw [List.forall₂_map_right_iff, List.forall₂_same]
      intro h _
      have dead : g.Dead = fun offset => ∃ d ∈ a.deadRanges, d.1 ≤ offset ∧ offset < d.2 :=
        funext fun offset => propext (found.dead_iff offset)
      rw [dead]
      exact h.cut_trim sorted proper
    · rw [same, changed]
      rfl
  · have index : (a.buried code).tableIndex? r.pool = code.tableIndex? pool :=
      findIdx?_hasName_of_grows built grows named _
    unfold Code.KeepsOthers Code.withTable at *
    rw [same, ← index]
    cases place : (a.buried code).tableIndex? r.pool <;> cases written
    · exact .inl rfl
    · exact .inr ⟨_, name, rfl⟩
    · exact .inl rfl
    · exact .inr ⟨_, name, rfl⟩

end FoundBy

end Analysis

end StackMaps
