import StackMaps.Proofs.Instruction.Reader

/-! The instructions of a code array lie one after the other and fill it. -/

namespace StackMaps

theorem Instruction.isBranch_of_target {i : Instruction} {target : Nat} (jumps : target ∈ i.targets) :
    i.isBranch = true := by
  cases i with
  | branch => rfl
  | straight => cases jumps

theorem mem_insert_iff {set : Std.TreeSet Nat} {n k : Nat} :
    n ∈ set.insert k ↔ n ∈ set ∨ n = k := by
  rw [Std.TreeSet.mem_insert, Std.LawfulEqCmp.compare_eq_iff_eq, or_comm, eq_comm]

theorem mem_foldl_insert {α : Type} {P : α → Prop} {step : Std.TreeSet Nat → α → Std.TreeSet Nat}
    {n : Nat} (adds : ∀ set x, n ∈ step set x ↔ n ∈ set ∨ P x) (xs : List α)
    (set : Std.TreeSet Nat) : n ∈ xs.foldl step set ↔ n ∈ set ∨ ∃ x ∈ xs, P x := by
  induction xs generalizing set with
  | nil => simp
  | cons x xs ih =>
    rw [List.foldl_cons, ih, adds]
    simp only [List.mem_cons, exists_eq_or_imp, or_assoc]

/-- The bytes from `offset` on are these instructions, in code of `length` bytes. -/
inductive Decodes (length : Nat) : (offset : Nat) → List UInt8 → List Located → Prop
  | nil (offset : Nat) : Decodes length offset [] []
  | cons {offset : Nat} {taken rest : List UInt8} {i : Instruction} {code : List Located}
      (nonempty : taken ≠ [])
      (reads : ∀ more, Instruction.reader length offset ⟨offset, taken ++ more⟩ =
        .ok (i, ⟨offset + taken.length, more⟩))
      (further : Decodes length (offset + taken.length) rest code) :
      Decodes length offset (taken ++ rest) (⟨offset, offset + taken.length, i⟩ :: code)

namespace Decodes

variable {length offset : Nat} {bytes bytes' : List UInt8} {code code' : List Located}

theorem append (first : Decodes length offset bytes code)
    (second : Decodes length (offset + bytes.length) bytes' code') :
    Decodes length offset (bytes ++ bytes') (code ++ code') := by
  induction first with
  | nil => exact second
  | cons nonempty reads _ ih =>
    rw [List.append_assoc]
    refine .cons nonempty reads (ih ?_)
    rwa [List.length_append, ← Nat.add_assoc] at second

theorem split (decodes : Decodes length offset bytes (code ++ code')) :
    ∃ front back, bytes = front ++ back ∧ Decodes length offset front code ∧
      Decodes length (offset + front.length) back code' := by
  induction code generalizing offset bytes with
  | nil => exact ⟨[], bytes, rfl, .nil _, decodes⟩
  | cons located code ih =>
    cases decodes with
    | cons nonempty reads further =>
      obtain ⟨front, back, rfl, first, second⟩ := ih further
      refine ⟨_ ++ front, back, by rw [List.append_assoc], .cons nonempty reads first, ?_⟩
      rwa [List.length_append, ← Nat.add_assoc]

theorem eq_nil_iff (decodes : Decodes length offset bytes code) : code = [] ↔ bytes = [] := by
  cases decodes with
  | nil => simp
  | cons nonempty _ _ => simp [nonempty]

theorem length_le (decodes : Decodes length offset bytes code) : code.length ≤ bytes.length := by
  induction decodes with
  | nil => exact Nat.le_refl _
  | cons nonempty _ _ ih =>
    have one := List.length_pos_iff.2 nonempty
    simp only [List.length_cons, List.length_append]
    omega

theorem length_pos (decodes : Decodes length offset bytes code) (nonempty : code ≠ []) :
    0 < bytes.length :=
  List.length_pos_iff.2 fun none => nonempty (decodes.eq_nil_iff.2 none)

theorem offset_eq {located : Located} (decodes : Decodes length offset bytes (located :: code)) :
    located.offset = offset := by
  cases decodes
  rfl

theorem getLast?_next (decodes : Decodes length offset bytes code) {last : Located}
    (there : code.getLast? = some last) : last.next = offset + bytes.length := by
  induction decodes with
  | nil => cases there
  | @cons offset taken rest i code _ _ further ih =>
    cases code with
    | nil =>
      cases there
      rw [further.eq_nil_iff.1 rfl, List.append_nil]
      rfl
    | cons second code =>
      rw [List.getLast?_cons_cons] at there
      rw [ih there, List.length_append, Nat.add_assoc]

theorem bounds (decodes : Decodes length offset bytes code) {located : Located}
    (member : located ∈ code) : offset ≤ located.offset ∧ located.offset < located.next ∧
      located.next ≤ offset + bytes.length := by
  induction decodes with
  | nil => cases member
  | @cons offset taken rest i code nonempty _ _ ih =>
    have size := List.length_pos_iff.2 nonempty
    simp only [List.length_append]
    obtain rfl | member := List.mem_cons.1 member
    · simp only
      omega
    · have := ih member
      omega

theorem pairwise (decodes : Decodes length offset bytes code) :
    code.Pairwise fun a b => a.next ≤ b.offset := by
  induction decodes with
  | nil => exact .nil
  | cons _ _ further ih =>
    exact .cons (fun located member => (further.bounds member).1) ih

theorem offset_injective (decodes : Decodes length offset bytes code) {a b : Located}
    (ina : a ∈ code) (inb : b ∈ code) (same : a.offset = b.offset) : a = b := by
  induction decodes with
  | nil => cases ina
  | @cons offset taken _ _ _ nonempty _ further ih =>
    have size := List.length_pos_iff.2 nonempty
    obtain rfl | ina := List.mem_cons.1 ina
    · obtain rfl | inb := List.mem_cons.1 inb
      · rfl
      · have later := (further.bounds inb).1
        simp only at same
        omega
    · obtain rfl | inb := List.mem_cons.1 inb
      · have later := (further.bounds ina).1
        simp only at same
        omega
      · exact ih ina inb

theorem next_start (decodes : Decodes length offset bytes code) {located : Located}
    (member : located ∈ code) (inside : located.next ≠ offset + bytes.length) :
    ∃ next ∈ code, next.offset = located.next := by
  obtain ⟨before, after, rfl⟩ := List.append_of_mem member
  obtain ⟨front, back, rfl, _, decodes⟩ := decodes.split
  cases decodes with
  | @cons _ taken rest _ _ _ _ further =>
    cases after with
    | nil =>
      rw [further.eq_nil_iff.1 rfl] at inside
      simp [Nat.add_assoc] at inside
    | cons next after => exact ⟨next, by simp, further.offset_eq⟩

theorem exists_next (decodes : Decodes length offset bytes code) {located : Located}
    (there : located ∈ code.dropLast) : ∃ next ∈ code.tail, next.offset = located.next := by
  induction decodes with
  | nil => cases there
  | @cons offset taken rest i code _ _ further ih =>
    cases code with
    | nil => cases there
    | cons next code =>
      rw [List.dropLast_cons_cons] at there
      obtain rfl | there := List.mem_cons.1 there
      · exact ⟨next, List.mem_cons_self, further.offset_eq⟩
      · obtain ⟨next', later, same⟩ := ih there
        exact ⟨next', List.mem_cons_of_mem _ later, same⟩

end Decodes

namespace Instruction

variable {length : Nat} {code : List Located}

theorem readOnto_nil {done : List Located} {fuel offset : Nat} :
    readOnto length done fuel ⟨offset, []⟩ = .ok done.reverse := by
  cases fuel <;> rfl

theorem readOnto_succ {done : List Located} {fuel offset : Nat} {bytes : List UInt8}
    (nonempty : bytes ≠ []) : readOnto length done (fuel + 1) ⟨offset, bytes⟩ =
      match Instruction.reader length offset ⟨offset, bytes⟩ with
      | .error fault => .error ⟨offset, fault⟩
      | .ok (i, after) => readOnto length (⟨offset, after.offset, i⟩ :: done) fuel after := by
  cases bytes with
  | nil => exact absurd rfl nonempty
  | cons => rfl

theorem readOnto_nil_eq_ok {done : List Located} {fuel offset : Nat} :
    readOnto length done fuel ⟨offset, []⟩ = .ok code ↔
      ∃ more, code = done.reverse ++ more ∧ Decodes length offset [] more := by
  rw [readOnto_nil]
  constructor
  · intro ok
    cases ok
    exact ⟨[], by simp, .nil offset⟩
  · rintro ⟨more, rfl, decodes⟩
    rw [decodes.eq_nil_iff.2 rfl, List.append_nil]

theorem readOnto_eq_ok {done : List Located} {fuel offset : Nat} {bytes : List UInt8}
    (enough : bytes.length ≤ fuel) : readOnto length done fuel ⟨offset, bytes⟩ = .ok code ↔
      ∃ more, code = done.reverse ++ more ∧ Decodes length offset bytes more := by
  induction fuel generalizing done offset bytes with
  | zero =>
    cases List.length_eq_zero_iff.1 (Nat.le_zero.1 enough)
    exact readOnto_nil_eq_ok
  | succ fuel ih =>
    by_cases empty : bytes = []
    · subst empty
      exact readOnto_nil_eq_ok
    · rw [readOnto_succ empty]
      constructor
      · intro ok
        cases read : Instruction.reader length offset ⟨offset, bytes⟩ with
        | error fault =>
          rw [read] at ok
          cases ok
        | ok result =>
          obtain ⟨i, next, rest⟩ := result
          rw [read] at ok
          obtain ⟨taken, nonempty, rfl, place, again⟩ := reader_local read
          cases place
          have size := List.length_pos_iff.2 nonempty
          rw [List.length_append] at enough
          change taken.length + rest.length ≤ fuel + 1 at enough
          obtain ⟨more, rfl, further⟩ := (@ih _ _ rest (by omega)).1 ok
          exact ⟨_ :: more, by simp, .cons nonempty again further⟩
      · rintro ⟨more, rfl, decodes⟩
        cases decodes with
        | nil => exact absurd rfl empty
        | cons nonempty reads further =>
          have size := List.length_pos_iff.2 nonempty
          rw [List.length_append] at enough
          rw [reads]
          exact (ih (by omega)).2 ⟨_, by simp, further⟩

theorem mem_starts {n : Nat} : n ∈ starts code ↔ ∃ located ∈ code, located.offset = n := by
  unfold starts
  have adds : ∀ (set : Std.TreeSet Nat) (located : Located),
      n ∈ set.insert located.offset ↔ n ∈ set ∨ n = located.offset := fun _ _ => mem_insert_iff
  rw [mem_foldl_insert adds]
  simp [eq_comm]

theorem strayJump?_eq_none : strayJump? code = none ↔
    ∀ located ∈ code, ∀ target ∈ located.instruction.targets,
      ∃ other ∈ code, other.offset = target := by
  unfold strayJump?
  rw [List.findSome?_eq_none_iff]
  refine forall₂_congr fun located _ => ?_
  rw [Option.map_eq_none_iff, List.find?_eq_none]
  simp only [Bool.not_eq_true', Bool.not_eq_false, Std.TreeSet.contains_iff_mem, mem_starts]

theorem decodeAll_eq_ok {bytes : List UInt8} : decodeAll bytes = .ok code ↔
    bytes ≠ [] ∧ Decodes bytes.length 0 bytes code ∧
      ∀ located ∈ code, ∀ target ∈ located.instruction.targets,
        ∃ other ∈ code, other.offset = target := by
  rw [decodeAll, ← strayJump?_eq_none]
  by_cases empty : bytes = []
  · simp [empty]
  · rw [if_neg (by simpa using empty)]
    have read : ∀ all, readOnto bytes.length [] bytes.length ⟨0, bytes⟩ = .ok all ↔
        Decodes bytes.length 0 bytes all := fun all => by
      rw [readOnto_eq_ok (Nat.le_refl _)]
      simp
    constructor
    · intro ok
      split at ok
      next => cases ok
      next all found =>
        split at ok
        next => cases ok
        next none =>
          cases ok
          exact ⟨empty, (read _).1 found, none⟩
    · rintro ⟨_, decodes, none⟩
      rw [(read code).2 decodes]
      simp only [none]

end Instruction

end StackMaps
