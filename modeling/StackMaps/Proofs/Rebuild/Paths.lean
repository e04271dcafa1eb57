import StackMaps.Proofs.Rebuild.Confined

/-! Control flow from one instruction to another, in the method that is read and in the one that is
written. Control gets to the instructions of the blocks that have frames, and from them it goes on in
the method that is written as it did before: only what it does not get to is overwritten, and of
handlers only what covers that is cut away. -/

namespace StackMaps

/-- Control can go from one instruction to another: by a jump, to the next one, or to a handler. -/
def Code.Leads (code : Code) (l l' : Located) : Prop :=
  l'.offset ∈ l.instruction.targets ∨ l.instruction.fallsThrough = true ∧ l'.offset = l.next ∨
    ∃ h ∈ code.handlers, h.Covers l.offset ∧ l'.offset = h.target.toNat

/-- Control gets to these of the instructions of a method. -/
inductive Code.Executes (code : Code) (located : List Located) : Located → Prop
  | first {l : Located} (there : l ∈ located) (start : l.offset = 0) : Executes code located l
  | next {l l' : Located} (before : Executes code located l) (there : l' ∈ located)
      (leads : code.Leads l l') : Executes code located l'

theorem Decodes.forall_of_falls {P : Located → Prop} {total start : Nat} {bytes : List UInt8}
    {located : List Located} (decodes : Decodes total start bytes located)
    (straight : ∀ l ∈ located.dropLast, l.instruction.isBranch = false)
    (head : ∀ l ∈ located, l.offset = start → P l)
    (next : ∀ l ∈ located, ∀ l' ∈ located, P l → l.instruction.fallsThrough = true →
      l'.offset = l.next → P l') : ∀ l ∈ located, P l := by
  induction decodes with
  | nil => exact nofun
  | @cons offset taken rest i located _ _ further ih =>
    have first : P ⟨offset, offset + taken.length, i⟩ := head _ List.mem_cons_self rfl
    refine List.forall_mem_cons.2 ⟨first, ih (fun l early => straight l ?_) (fun l there start => ?_)
      fun l there l' there' => next l (List.mem_cons_of_mem _ there) l' (List.mem_cons_of_mem _ there')⟩
    · rw [List.dropLast_cons_of_ne_nil (List.ne_nil_of_mem (List.dropLast_subset _ early))]
      exact List.mem_cons_of_mem _ early
    · have straight := straight ⟨offset, offset + taken.length, i⟩ (by
        rw [List.dropLast_cons_of_ne_nil (List.ne_nil_of_mem there)]
        exact List.mem_cons_self)
      have falls : i.fallsThrough = true := by
        cases i with
        | straight => rfl
        | branch => cases straight
      exact next _ List.mem_cons_self l (List.mem_cons_of_mem _ there) first falls start

namespace Analysis

variable {signature : Signature} {code : Code} {pool : Pool} {a : Analysis} {g : FlowGraph}
  {r : Rebuilt} {b : Block} {n : Nat} {l l' : Located}

def Gets (a : Analysis) (l : Located) : Prop :=
  ∃ b ∈ a.blocks, (∃ f, a.entryFrame b = some f) ∧ l ∈ b.code

namespace Explored

theorem mem_of_gets (explored : a.Explored signature code pool g) (gets : a.Gets l) : l ∈ a.code := by
  obtain ⟨b, block, _, own⟩ := gets
  exact (explored.bounds block own).1

theorem gets_start (explored : a.Explored signature code pool g)
    (entry : ∃ f, a.entry[n]? = some f) (there : l ∈ a.code) (start : l.offset = n) : a.Gets l := by
  obtain ⟨b, block, rfl⟩ := explored.exists_block entry there start
  refine ⟨b, block, entry, ?_⟩
  obtain ⟨head, own, first, place⟩ := explored.exists_head block
  rwa [explored.holds.decodes.offset_injective there first (start.trans place.symm)]

theorem caught_iff (explored : a.Explored signature code pool g) {offset : Nat} :
    (∃ c ∈ g.clauses, c.covers offset = true ∧ n = c.target) ↔
      ∃ h ∈ code.handlers, h.Covers offset ∧ n = h.target.toNat := by
  constructor
  · rintro ⟨c, clause, covers, target⟩
    obtain ⟨h, there, ok⟩ := mem_of_mapM_eq_ok explored.clauses clause
    obtain ⟨type, _, rfl⟩ := Handler.clause_eq_ok.1 ok
    exact ⟨h, there, CatchClause.covers_iff.1 covers, target⟩
  · rintro ⟨h, there, covers, target⟩
    obtain ⟨c, clause, ok⟩ := exists_of_mapM_eq_ok explored.clauses there
    obtain ⟨type, _, rfl⟩ := Handler.clause_eq_ok.1 ok
    exact ⟨_, clause, CatchClause.covers_iff.2 covers, target⟩

theorem gets_leads (explored : a.Explored signature code pool g) (gets : a.Gets l)
    (there : l' ∈ a.code) (leads : code.Leads l l') : a.Gets l' := by
  obtain ⟨b, block, live, own⟩ := gets
  have indexed := explored.getElem?_blocks.2 ⟨block, rfl⟩
  have start {n : Nat} (way : g.Leads b.start n) (place : l'.offset = n) : a.Gets l' :=
    explored.gets_start (explored.entry_of_leads live way) there place
  obtain jumps | ⟨falls, next⟩ | caught := leads
  · have last? := explored.getLast?_of_branch block own (Instruction.isBranch_of_target jumps)
    exact start ⟨b, indexed, .inl ⟨l, last?, .inl jumps⟩⟩ rfl
  · by_cases last? : b.code.getLast? = some l
    · -- The next instruction is the first one of the next block.
      exact start ⟨b, indexed, .inl ⟨l, last?, .inr ⟨falls, next⟩⟩⟩ rfl
    · -- The next instruction is in the same block.
      obtain ⟨_, _, _, decodes⟩ := explored.decodes block
      have early := List.mem_dropLast_of_mem_of_ne_getLast? own fun same => last? same.symm
      obtain ⟨second, later, same⟩ := decodes.exists_next early
      have later := List.mem_of_mem_tail later
      have second_eq := explored.holds.decodes.offset_injective there (explored.bounds block later).1
        (next.trans same.symm)
      exact ⟨b, block, live, second_eq ▸ later⟩
  · obtain ⟨c, clause, covers, target⟩ := explored.caught_iff.2 caught
    exact start ⟨b, indexed, .inr ⟨l, own, c, clause, covers, target⟩⟩ rfl

/-- What holds of the first instruction, and goes over from each one to those that it leads to, holds
wherever control gets to. -/
theorem gets_induction (explored : a.Explored signature code pool g) {P : Located → Prop}
    (first : ∀ l ∈ a.code, l.offset = 0 → P l)
    (next : ∀ l l', a.Gets l → P l → l' ∈ a.code → code.Leads l l' → P l') (gets : a.Gets l) :
    P l := by
  suffices all : ∀ n, g.Reaches n → ∀ b ∈ a.blocks, b.start = n → ∀ l ∈ b.code, P l by
    obtain ⟨b, block, live, own⟩ := gets
    exact all b.start ((explored.entry_iff _).1 live) b block rfl l own
  -- A block that control gets to has the property if its first instruction has.
  have whole {b : Block} (block : b ∈ a.blocks) (reaches : g.Reaches b.start)
      (head : ∀ l ∈ a.code, l.offset = b.start → P l) : ∀ l ∈ b.code, P l := by
    obtain ⟨_, _, _, decodes⟩ := explored.decodes block
    refine decodes.forall_of_falls (fun l => explored.straight block)
      (fun l own => head l (explored.bounds block own).1) fun l own l' own' holds falls after => ?_
    exact next l l' ⟨b, block, (explored.entry_iff _).2 reaches, own⟩ holds
      (explored.bounds block own').1 (.inr (.inl ⟨falls, after⟩))
  intro n reaches
  -- The induction is on how control gets to a block.
  induction reaches with
  | refl =>
    intro b block start
    exact whole block (start ▸ .refl) fun l there place => first l there (place.trans start)
  | @tail m n before leads ih =>
    rintro b block rfl
    refine whole block (before.tail leads) fun l there place => ?_
    obtain ⟨p, indexed, way⟩ := leads
    obtain ⟨block', rfl⟩ := explored.getElem?_blocks.1 indexed
    have live := (explored.entry_iff _).2 before
    obtain ⟨last, last?, way⟩ | ⟨l', own, caught⟩ := way
    · have own := List.mem_of_getLast? last?
      refine next last l ⟨p, block', live, own⟩ (ih p block' rfl last own) there ?_
      rw [← place] at way
      exact way.imp_right .inl
    · rw [← place] at caught
      exact next l' l ⟨p, block', live, own⟩ (ih p block' rfl l' own) there
        (.inr (.inr (explored.caught_iff.1 caught)))

/-- The instructions that control gets to are those of the blocks that have frames. -/
theorem executes_iff (explored : a.Explored signature code pool g) :
    code.Executes a.code l ↔ a.Gets l := by
  constructor
  · intro executes
    induction executes with
    | first there start => exact explored.gets_start ((explored.entry_iff 0).2 .refl) there start
    | next _ there leads ih => exact explored.gets_leads ih there leads
  · exact explored.gets_induction (fun l there start => .first there start)
      fun l l' _ executes there leads => .next executes there leads

theorem mem_buried_of_gets (gets : a.Gets l) : l ∈ a.buriedCode := by
  obtain ⟨b, block, ⟨f, live⟩, own⟩ := gets
  exact live_mem_buriedCode block live own

theorem eq_of_gets (explored : a.Explored signature code pool g) (gets : a.Gets l)
    (there : l' ∈ a.buriedCode) (same : l'.offset = l.offset) : l' = l :=
  explored.buried_holds.decodes.offset_injective there (mem_buried_of_gets gets) same

theorem leads_rebuilt_iff (explored : a.Explored signature code pool g)
    (ok : a.rebuild code pool = .ok r) (gets : a.Gets l) : r.code.Leads l l' ↔ code.Leads l l' := by
  have outside : ¬ ∃ d ∈ a.deadRanges, d.1 ≤ l.offset ∧ l.offset < d.2 := by
    obtain ⟨b, block, ⟨f, live⟩, own⟩ := gets
    rintro ⟨d, dead, inside⟩
    exact explored.not_mem_deadRanges block live own d dead inside
  have cut (h : Handler) := h.cut_trim explored.deadRanges_sorted explored.deadRanges_proper
  refine or_congr_right (or_congr_right ?_)
  rw [rebuilt_handlers ok]
  constructor
  · rintro ⟨h', there, covers, target⟩
    obtain ⟨h, old, piece⟩ := List.mem_flatMap.1 there
    exact ⟨h, old, (((cut h).covers _).1 ⟨h', piece, covers⟩).1,
      target.trans (congrArg UInt16.toNat ((cut h).alike h' piece).1)⟩
  · rintro ⟨h, old, covers, target⟩
    obtain ⟨h', piece, covers⟩ := ((cut h).covers _).2 ⟨covers, outside⟩
    exact ⟨h', List.mem_flatMap.2 ⟨h, old, piece⟩, covers,
      target.trans (congrArg UInt16.toNat ((cut h).alike h' piece).1.symm)⟩

theorem exists_led (explored : a.Explored signature code pool g) (there : l ∈ a.code)
    (leads : code.Leads l l') (inside : l'.offset < code.bytes.length) :
    ∃ led ∈ a.code, led.offset = l'.offset := by
  obtain jumps | ⟨_, next⟩ | ⟨h, handler, _, target⟩ := leads
  · exact explored.holds.targets l there _ jumps
  · rw [next]
    exact explored.holds.decodes.next_start there (by omega)
  · rw [target]
    exact (explored.holds.handlers h handler).target

theorem rebuilt_executes_iff (explored : a.Explored signature code pool g)
    (ok : a.rebuild code pool = .ok r) : r.code.Executes a.buriedCode l ↔ a.Gets l := by
  constructor
  · intro executes
    have holds := (rebuilt_holds_iff ok).2 explored.buried_holds
    induction executes with
    | @first l there start =>
      obtain ⟨head, old, place⟩ := explored.holds.exists_first
      have gets := explored.gets_start ((explored.entry_iff 0).2 .refl) old place
      rwa [explored.eq_of_gets gets there (start.trans place.symm)]
    | @next l l' _ there leads gets =>
      have leads := (explored.leads_rebuilt_iff ok gets).1 leads
      have inside := holds.decodes.bounds there
      rw [explored.length_rebuilt ok] at inside
      obtain ⟨led, old, same⟩ := explored.exists_led (explored.mem_of_gets gets) leads (by omega)
      have led_gets := explored.gets_leads gets old (by rwa [Code.Leads, same])
      rwa [explored.eq_of_gets led_gets there same.symm]
  · refine explored.gets_induction (fun l there start => ?_) fun l l' gets executes there leads => ?_
    · have gets := explored.gets_start ((explored.entry_iff 0).2 .refl) there start
      exact .first (mem_buried_of_gets gets) start
    · exact .next executes (mem_buried_of_gets (explored.gets_leads gets there leads))
        ((explored.leads_rebuilt_iff ok gets).2 leads)

end Explored

end Analysis

end StackMaps
