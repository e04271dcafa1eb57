import StackMaps.Flow.Analysis
import StackMaps.Proofs.Instruction.Code

/-! Blocks are the code of a method cut at leaders: together they are the whole code, each starts at
its first instruction and stops where the next one starts, and a leader is only ever first. -/

namespace StackMaps

variable {leaders : Std.TreeSet Nat} {length : Nat} {code : List Located} {blocks : List Block}

namespace Block

/-- The block holds these instructions, of which only the first can be a leader. -/
structure Holds (leaders : Std.TreeSet Nat) (b : Block) (head : Located) (tail : List Located) :
    Prop where
  code : b.code = head :: tail
  start : b.start = head.offset
  inner : ∀ located ∈ tail, located.offset ∉ leaders

/-- The blocks are the code cut at leaders. -/
inductive Cut (leaders : Std.TreeSet Nat) (length : Nat) : List Located → List Block → Prop
  | last {b : Block} {head : Located} {tail : List Located} (holds : b.Holds leaders head tail)
      (stop : b.stop = length) : Cut leaders length (head :: tail) [b]
  | cons {b : Block} {head next : Located} {tail rest : List Located} {blocks : List Block}
      (holds : b.Holds leaders head tail) (stop : b.stop = next.offset)
      (leader : next.offset ∈ leaders) (further : Cut leaders length (next :: rest) blocks) :
      Cut leaders length (head :: tail ++ next :: rest) (b :: blocks)

/-- The blocks lie one after the other from an offset on, with the code that these bytes decode to. -/
inductive Pieces (total : Nat) : (offset : Nat) → List UInt8 → List Block → Prop
  | nil (offset : Nat) : Pieces total offset [] []
  | cons {b : Block} {offset : Nat} {front back : List UInt8} {blocks : List Block} (start : b.start = offset)
      (stop : b.stop = offset + front.length) (nonempty : front ≠ [])
      (own : Decodes total offset front b.code)
      (further : Pieces total (offset + front.length) back blocks) :
      Pieces total offset (front ++ back) (b :: blocks)

theorem ofReversed_holds {current : List Located} {head : Located} {tail : List Located}
    (same : current.reverse = head :: tail) (inner : ∀ located ∈ tail, located.offset ∉ leaders)
    (first stop : Nat) : (ofReversed current first stop).Holds leaders head tail where
  code := same
  start := by
    have last : current.getLast? = some head := by
      rw [← List.head?_reverse, same, List.head?_cons]
    simp [ofReversed, last]
  inner := inner

theorem splitOnto_cut {done : List Block} {first : Nat} {current : List Located}
    {head : Located} {tail : List Located} (same : current.reverse = head :: tail)
    (inner : ∀ located ∈ tail, located.offset ∉ leaders) :
    ∃ more, splitOnto leaders length done first current code = done.reverse ++ more ∧
      Cut leaders length (head :: tail ++ code) more := by
  induction code generalizing done first current head tail with
  | nil =>
    refine ⟨[ofReversed current first length], by simp [splitOnto], ?_⟩
    rw [List.append_nil]
    exact .last (ofReversed_holds same inner first length) rfl
  | cons located code ih =>
    have begun : current ≠ [] := by
      rintro rfl
      cases same
    rw [splitOnto]
    by_cases leader : located.offset ∈ leaders
    · have cut : (!current.isEmpty && leaders.contains located.offset) = true := by
        simp [begun, leader]
      rw [if_pos cut]
      obtain ⟨more, result, further⟩ := @ih (ofReversed current first located.offset :: done)
        (first + current.length) [located] located [] rfl (by simp)
      refine ⟨ofReversed current first located.offset :: more, by rw [result]; simp, ?_⟩
      exact .cons (ofReversed_holds same inner first located.offset) rfl leader further
    · have uncut : ¬ (!current.isEmpty && leaders.contains located.offset) = true := by
        simp [leader]
      rw [if_neg uncut]
      have inner' : ∀ other ∈ tail ++ [located], other.offset ∉ leaders := by
        intro other member
        obtain member | member := List.mem_append.1 member
        · exact inner other member
        · rw [List.mem_singleton.1 member]
          exact leader
      obtain ⟨more, result, further⟩ := @ih done first (located :: current) head (tail ++ [located])
        (by simp [same]) inner'
      exact ⟨more, result, by simpa using further⟩

theorem split_cut (nonempty : code ≠ []) : Cut leaders length code (split leaders length code) := by
  cases code with
  | nil => exact absurd rfl nonempty
  | cons head code =>
    have started : split leaders length (head :: code) = splitOnto leaders length [] 0 [head] code :=
      by simp [split, splitOnto]
    rw [started]
    obtain ⟨more, result, cut⟩ := @splitOnto_cut leaders length code [] 0 [head] head [] rfl (by simp)
    rw [result]
    exact cut

namespace Cut

theorem flatMap_code (cut : Cut leaders length code blocks) : blocks.flatMap (·.code) = code := by
  induction cut with
  | last holds _ => simp [holds.code]
  | cons holds _ _ _ ih => rw [List.flatMap_cons, ih, holds.code]

theorem holds (cut : Cut leaders length code blocks) {b : Block} (member : b ∈ blocks) :
    ∃ head tail, b.Holds leaders head tail := by
  induction cut with
  | last holds _ =>
    rw [List.mem_singleton.1 member]
    exact ⟨_, _, holds⟩
  | cons holds _ _ _ ih =>
    obtain rfl | member := List.mem_cons.1 member
    · exact ⟨_, _, holds⟩
    · exact ih member

theorem exists_block (cut : Cut leaders length code blocks) {located : Located}
    (member : located ∈ code)
    (starts : located.offset ∈ leaders ∨ code.head? = some located) :
    ∃ b ∈ blocks, b.start = located.offset := by
  induction cut with
  | last holds _ =>
    obtain rfl | inner := List.mem_cons.1 member
    · exact ⟨_, List.mem_singleton_self _, holds.start⟩
    · obtain leader | first := starts
      · exact absurd leader (holds.inner _ inner)
      · cases first
        exact ⟨_, List.mem_singleton_self _, holds.start⟩
  | cons holds _ _ _ ih =>
    rw [List.cons_append] at member starts
    obtain rfl | later := List.mem_cons.1 member
    · exact ⟨_, List.mem_cons_self, holds.start⟩
    · obtain leader | first := starts
      · obtain inner | further := List.mem_append.1 later
        · exact absurd leader (holds.inner _ inner)
        · obtain ⟨b, there, same⟩ := ih further (.inl leader)
          exact ⟨b, List.mem_cons_of_mem _ there, same⟩
      · cases first
        exact ⟨_, List.mem_cons_self, holds.start⟩

theorem exists_head {b : Block} {blocks : List Block} (cut : Cut leaders length code (b :: blocks)) :
    ∃ head rest, code = head :: rest ∧ b.start = head.offset := by
  cases cut with
  | last holds _ => exact ⟨_, _, rfl, holds.start⟩
  | cons holds _ _ _ => exact ⟨_, _, rfl, holds.start⟩

theorem stop_cases (cut : Cut leaders length code blocks) {b : Block} (member : b ∈ blocks) :
    b.stop = length ∨ ∃ other ∈ blocks, other.start = b.stop := by
  induction cut with
  | last holds stop =>
    rw [List.mem_singleton.1 member]
    exact .inl stop
  | @cons b' head next tail rest blocks holds stop leader further ih =>
    obtain rfl | member := List.mem_cons.1 member
    · obtain ⟨other, there, same⟩ := further.exists_block List.mem_cons_self (.inl leader)
      exact .inr ⟨other, List.mem_cons_of_mem _ there, by rw [same, stop]⟩
    · refine (ih member).imp_right ?_
      rintro ⟨other, there, same⟩
      exact ⟨other, List.mem_cons_of_mem _ there, same⟩

theorem start_cases (cut : Cut leaders length code blocks) {b : Block} (member : b ∈ blocks) :
    (∃ head, code.head? = some head ∧ b.start = head.offset) ∨
      b.start ∈ leaders ∧ ∃ other ∈ blocks, other.stop = b.start := by
  induction cut with
  | last holds _ =>
    rw [List.mem_singleton.1 member]
    exact .inl ⟨_, rfl, holds.start⟩
  | cons holds stop leader further ih =>
    obtain rfl | later := List.mem_cons.1 member
    · exact .inl ⟨_, rfl, holds.start⟩
    · obtain ⟨head, first, start⟩ | ⟨start, other, there, stops⟩ := ih later
      · cases first
        exact .inr ⟨start ▸ leader, _, List.mem_cons_self, by rw [stop, start]⟩
      · exact .inr ⟨start, other, List.mem_cons_of_mem _ there, stops⟩

theorem pieces (cut : Cut leaders length code blocks) {total offset : Nat} {bytes : List UInt8}
    (decodes : Decodes total offset bytes code) (stop : length = offset + bytes.length) :
    Pieces total offset bytes blocks := by
  induction cut generalizing offset bytes with
  | last holds ends =>
    have nonempty : bytes ≠ [] := mt decodes.eq_nil_iff.2 (List.cons_ne_nil _ _)
    rw [← List.append_nil bytes]
    exact .cons (holds.start.trans decodes.offset_eq) (ends.trans stop) nonempty (by rwa [holds.code]) (.nil _)
  | cons holds ends _ _ ih =>
    obtain ⟨front, back, rfl, first, second⟩ := decodes.split
    have nonempty : front ≠ [] := mt first.eq_nil_iff.2 (List.cons_ne_nil _ _)
    rw [List.length_append] at stop
    exact .cons (holds.start.trans first.offset_eq) (ends.trans second.offset_eq) nonempty
      (by rwa [holds.code]) (ih second (by omega))

end Cut

namespace Pieces

variable {total offset : Nat} {bytes : List UInt8}

theorem decodes (pieces : Pieces total offset bytes blocks) {b : Block} (member : b ∈ blocks) :
    ∃ front piece back, bytes = front ++ piece ++ back ∧ b.start = offset + front.length ∧
      b.stop = b.start + piece.length ∧ Decodes total b.start piece b.code := by
  induction pieces with
  | nil => cases member
  | @cons _ _ front back _ start stop _ own _ ih =>
    obtain rfl | member := List.mem_cons.1 member
    · exact ⟨[], front, back, rfl, start, by rw [stop, start], by rwa [start]⟩
    · obtain ⟨front', piece, back', rfl, start, ends, own⟩ := ih member
      exact ⟨front ++ front', piece, back', by simp, by rw [start, List.length_append, Nat.add_assoc],
        ends, own⟩

theorem pairwise (pieces : Pieces total offset bytes blocks) :
    blocks.Pairwise fun a b => a.stop ≤ b.start := by
  induction pieces with
  | nil => exact .nil
  | cons _ stop _ _ further ih =>
    refine .cons (fun b member => ?_) ih
    obtain ⟨front, _, _, _, start, _⟩ := further.decodes member
    rw [stop, start]
    exact Nat.le_add_right _ _

end Pieces

theorem mem_insertAll {targets : List Nat} {set : Std.TreeSet Nat} {n : Nat} :
    n ∈ targets.foldl (·.insert ·) set ↔ n ∈ set ∨ n ∈ targets := by
  have adds : ∀ (set : Std.TreeSet Nat) target, n ∈ set.insert target ↔ n ∈ set ∨ n = target :=
    fun _ _ => mem_insert_iff
  rw [mem_foldl_insert adds]
  simp

theorem mem_leaders {handlers : List Handler} {n : Nat} : n ∈ Block.leaders code handlers length ↔
    n = 0 ∨ (∃ located ∈ code, located.instruction.isBranch = true ∧
      (n ∈ located.instruction.targets ∨ located.next < length ∧ n = located.next)) ∨
    ∃ h ∈ handlers, n = h.target.toNat := by
  have ofHandler : ∀ (set : Std.TreeSet Nat) (h : Handler),
      n ∈ set.insert h.target.toNat ↔ n ∈ set ∨ n = h.target.toNat := fun _ _ => mem_insert_iff
  unfold Block.leaders
  rw [mem_foldl_insert ofHandler, mem_foldl_insert
    (P := fun (located : Located) => located.instruction.isBranch = true ∧
      (n ∈ located.instruction.targets ∨ located.next < length ∧ n = located.next)), or_assoc]
  · refine or_congr_left ?_
    rw [Std.TreeSet.singleton_eq_insert, mem_insert_iff]
    simp
  · intro set located
    split
    next branch =>
      split
      next inside => simp only [mem_insert_iff, mem_insertAll, branch, inside, true_and, or_assoc]
      next outside => simp only [mem_insertAll, branch, outside, true_and, false_and, or_false]
    next straight => simp only [straight, Bool.false_eq_true, false_and, or_false]

theorem mem_frameTargets {handlers : List Handler} {n : Nat} :
    n ∈ Block.frameTargets code handlers length ↔
      (∃ located ∈ code, located.instruction.isBranch = true ∧ (n ∈ located.instruction.targets ∨
        located.next < length ∧ located.instruction.fallsThrough = false ∧ n = located.next)) ∨
      ∃ h ∈ handlers, n = h.target.toNat := by
  have ofHandler : ∀ (set : Std.TreeSet Nat) (h : Handler),
      n ∈ set.insert h.target.toNat ↔ n ∈ set ∨ n = h.target.toNat := fun _ _ => mem_insert_iff
  unfold Block.frameTargets
  rw [mem_foldl_insert ofHandler, mem_foldl_insert
    (P := fun (located : Located) => located.instruction.isBranch = true ∧
      (n ∈ located.instruction.targets ∨
        located.next < length ∧ located.instruction.fallsThrough = false ∧ n = located.next))]
  · simp
  · intro set located
    split
    next branch =>
      split
      next inside =>
        simp only [Bool.not_eq_true'] at inside
        simp only [mem_insert_iff, mem_insertAll, branch, inside, true_and, or_assoc]
      next outside =>
        simp only [Bool.not_eq_true'] at outside
        have never : ¬ (located.next < length ∧ located.instruction.fallsThrough = false ∧
            n = located.next) := fun ⟨less, ends, _⟩ => outside ⟨less, ends⟩
        simp only [mem_insertAll, branch, never, true_and, or_false]
    next straight => simp only [straight, Bool.false_eq_true, false_and, or_false]

theorem getElem?_index (distinct : blocks.Pairwise fun a b => a.start ≠ b.start) {n : Nat}
    {b : Block} :
    (blocks.foldl (fun index b => index.insert b.start b) (∅ : Std.TreeMap Nat Block))[n]? = some b ↔
      b ∈ blocks ∧ b.start = n := by
  suffices general : ∀ index : Std.TreeMap Nat Block,
      (blocks.foldl (fun index b => index.insert b.start b) index)[n]? = some b ↔
        b ∈ blocks ∧ b.start = n ∨ (∀ other ∈ blocks, other.start ≠ n) ∧ index[n]? = some b by
    rw [general]
    simp
  induction distinct with
  | nil => simp
  | @cons first rest apart _ ih =>
    intro index
    rw [List.foldl_cons, ih, Std.TreeMap.getElem?_insert]
    by_cases here : first.start = n
    · subst here
      have later : ∀ other ∈ rest, other.start ≠ first.start := fun other member same =>
        apart other member same.symm
      rw [if_pos (by simp)]
      constructor
      · rintro (⟨member, same⟩ | ⟨_, same⟩)
        · exact absurd same (later b member)
        · cases same
          exact .inl ⟨List.mem_cons_self, rfl⟩
      · rintro (⟨member, same⟩ | ⟨none, _⟩)
        · obtain rfl | member := List.mem_cons.1 member
          · exact .inr ⟨later, rfl⟩
          · exact absurd same (later b member)
        · exact absurd rfl (none first List.mem_cons_self)
    · rw [if_neg (by simpa using here)]
      simp only [List.mem_cons, forall_eq_or_imp]
      constructor
      · rintro (⟨member, same⟩ | ⟨none, there⟩)
        · exact .inl ⟨.inr member, same⟩
        · exact .inr ⟨⟨here, none⟩, there⟩
      · rintro (⟨rfl | member, same⟩ | ⟨⟨_, none⟩, there⟩)
        · exact absurd same here
        · exact .inl ⟨member, same⟩
        · exact .inr ⟨none, there⟩

end Block

end StackMaps
