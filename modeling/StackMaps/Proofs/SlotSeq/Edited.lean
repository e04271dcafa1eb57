import StackMaps.Descriptor
import StackMaps.Proofs.SlotSeq

/-! Elements that are pushed, popped, cleared and appended leave the sequence of the elements that are
there in the end: their offsets, the ways to walk over them and what is looked up do not depend on
what was there before. -/

namespace StackMaps

variable {α : Type}

namespace SlotWalk

variable {w rest : SlotWalk α} {item : Nat × Nat × α}

def items (w : SlotWalk α) : List (Nat × Nat × α) :=
  (w.left.zipIdx w.passed).map fun ((offset, x), index) => (offset, index, x)

theorem length_items (w : SlotWalk α) : w.items.length = w.left.length := by
  rw [items, List.length_map, List.length_zipIdx]

theorem items_of_next? (taken : w.next? = some (item, rest)) : w.items = item :: rest.items := by
  obtain ⟨passed, _ | ⟨_, left⟩⟩ := w
  · cases taken
  · cases taken
    rfl

theorem items_of_nextBack? (taken : w.nextBack? = some (item, rest)) :
    w.items = rest.items ++ [item] := by
  obtain ⟨passed, left⟩ := w
  obtain rfl | ⟨left, last, rfl⟩ := List.eq_nil_or_concat left
  · cases taken
  · simp only [nextBack?, List.concat_eq_append, List.getLast?_concat, List.dropLast_concat,
      Option.map_some] at taken
    cases taken
    simp [items, List.zipIdx_append]

theorem take?_eq_none {side : Side} (none : w.take? side = none) : w.items = [] := by
  obtain ⟨passed, left⟩ := w
  obtain rfl | ⟨left, last, rfl⟩ := List.eq_nil_or_concat left
  · rfl
  · cases side with
    | front => cases left <;> cases none
    | back => simp [take?, nextBack?] at none

theorem length_of_take? {side : Side} (taken : w.take? side = some (item, rest)) :
    w.items.length = rest.items.length + 1 := by
  cases side with
  | front => rw [items_of_next? taken, List.length_cons]
  | back => rw [items_of_nextBack? taken, List.length_append, List.length_singleton]

theorem takeAll_items (w : SlotWalk α) (sides : List Side) :
    (w.takeAll sides).fronts ++ (w.takeAll sides).rest.items ++ (w.takeAll sides).backs.reverse =
      w.items := by
  induction sides generalizing w with
  | nil => simp [takeAll]
  | cons side sides ih =>
    rw [takeAll]
    split
    next => simp
    next item rest taken =>
      cases side with
      | front => simp [items_of_next? taken, ← ih rest]
      | back => simp [items_of_nextBack? taken, ← ih rest]

theorem takeAll_left (w : SlotWalk α) (sides : List Side) :
    (w.takeAll sides).rest.items.length = w.items.length - sides.length := by
  induction sides generalizing w with
  | nil => rfl
  | cons side sides ih =>
    rw [takeAll]
    split
    next none => simp [take?_eq_none none]
    next item rest taken =>
      have all : (rest.takeAll sides).rest.items.length = w.items.length - (sides.length + 1) := by
        rw [ih, length_of_take? taken, Nat.add_sub_add_right]
      cases side <;> exact all

theorem length_fronts_takeAll (w : SlotWalk α) (sides : List Side) :
    (w.takeAll sides).fronts.length = (sides.take w.items.length).count .front := by
  induction sides generalizing w with
  | nil => rw [List.take_nil]; rfl
  | cons side sides ih =>
    rw [takeAll]
    split
    next none => rw [take?_eq_none none]; rfl
    next item rest taken =>
      rw [length_of_take? taken, List.take_succ_cons]
      cases side with
      | front => rw [List.length_cons, ih, List.count_cons_self]
      | back => rw [ih, List.count_cons_of_ne (show Side.back ≠ .front by decide)]

end SlotWalk

inductive SlotEdit (α : Type)
  | push (x : α)
  | pop
  | clear
  | extend (xs : List α)

namespace SlotEdit

def added : SlotEdit α → List α
  | push x => [x]
  | pop | clear => []
  | extend xs => xs

def listed (xs : List α) : SlotEdit α → List α
  | push x => xs ++ [x]
  | pop => xs.dropLast
  | clear => []
  | extend ys => xs ++ ys

theorem mem_listed {e : SlotEdit α} {xs : List α} {x : α} (there : x ∈ e.listed xs) :
    x ∈ xs ∨ x ∈ e.added := by
  cases e with
  | push y => exact List.mem_append.1 there
  | pop => exact .inl (List.dropLast_subset xs there)
  | clear => cases there
  | extend ys => exact List.mem_append.1 there

def listing (edits : List (SlotEdit α)) : List α := edits.foldl listed []

theorem forall_mem_listing {edits : List (SlotEdit α)} {P : α → Prop}
    (all : ∀ e ∈ edits, ∀ x ∈ e.added, P x) : ∀ x ∈ listing edits, P x := by
  suffices kept : ∀ xs, (∀ x ∈ xs, P x) → ∀ x ∈ edits.foldl listed xs, P x from kept [] nofun
  induction edits with
  | nil => exact fun _ before => before
  | cons e edits ih =>
    intro xs before
    refine ih (fun e' later => all e' (List.mem_cons_of_mem e later)) _ fun x there => ?_
    obtain earlier | own := mem_listed there
    · exact before x earlier
    · exact all e List.mem_cons_self x own

end SlotEdit

namespace SlotSeq

variable [SlotWidth α] {s : SlotSeq α} {xs : List α}

def edit (s : SlotSeq α) : SlotEdit α → SlotSeq α
  | .push x => s.push x
  | .pop => (s.pop?.map (·.2)).getD s
  | .clear => s.clear
  | .extend xs => s.append xs

def edited (start : Nat) (edits : List (SlotEdit α)) : SlotSeq α := edits.foldl edit (startingAt start)

theorem edit_append (start : Nat) (xs : List α) (e : SlotEdit α) :
    ((startingAt start).append xs).edit e = (startingAt start).append (e.listed xs) := by
  cases e with
  | push x => exact (append_concat _ xs x).symm
  | pop =>
    -- Nothing can be popped off no elements, and otherwise the last push is undone.
    obtain rfl | ⟨xs, x, rfl⟩ := List.eq_nil_or_concat xs
    · rfl
    · rw [List.concat_eq_append, append_concat, edit, pop?_push, SlotEdit.listed, List.dropLast_concat]
      rfl
  | clear =>
    rw [edit, clear, start_append]
    rfl
  | extend ys => exact (append_append _ xs ys).symm

/-- A sequence does not tell what was done to it, only what is there. -/
theorem edited_eq (start : Nat) (edits : List (SlotEdit α)) :
    edited start edits = (startingAt start).append (SlotEdit.listing edits) := by
  -- After the first edit the others start from some list, not from none.
  suffices all : ∀ xs, edits.foldl edit ((startingAt start).append xs) =
      (startingAt start).append (edits.foldl SlotEdit.listed xs) from all []
  induction edits with
  | nil => exact fun xs => rfl
  | cons e edits ih =>
    intro xs
    rw [List.foldl_cons, edit_append, ih, List.foldl_cons]

theorem start_edited (start : Nat) (edits : List (SlotEdit α)) :
    (edited start edits : SlotSeq α).start = start := by
  rw [edited_eq, start_append]
  rfl

theorem holds_edited (start : Nat) (edits : List (SlotEdit α)) :
    (edited start edits).Holds (SlotEdit.listing edits) := by
  rw [edited_eq]
  exact (holds_startingAt start).append _

omit [SlotWidth α] in
theorem items_walk (s : SlotSeq α) : s.walk.items = s.items := rfl

omit [SlotWidth α] in
theorem length_items (s : SlotSeq α) : s.items.length = s.size := by
  rw [← items_walk, SlotWalk.length_items]
  exact Array.length_toList

omit [SlotWidth α] in
theorem getElem?_items (s : SlotSeq α) (i : Nat) :
    s.items[i]? = (s.at? i).map fun (offset, x) => (offset, i, x) := by
  rw [items, List.getElem?_map, List.getElem?_zipIdx, Array.getElem?_toList, Option.map_map, at?,
    Nat.zero_add]
  rfl

omit [SlotWidth α] in
theorem takeAll_walk (s : SlotSeq α) (sides : List SlotWalk.Side) :
    let taken := s.walk.takeAll sides
    taken.fronts ++ taken.rest.items ++ taken.backs.reverse = s.items ∧
      taken.fronts.length = (sides.take s.size).count .front ∧
      taken.rest.items.length = s.size - sides.length := by
  refine ⟨?_, ?_, ?_⟩
  · rw [SlotWalk.takeAll_items, items_walk]
  · rw [SlotWalk.length_fronts_takeAll, items_walk, length_items]
  · rw [SlotWalk.takeAll_left, items_walk, length_items]

omit [SlotWidth α] in
theorem reversed_eq (s : SlotSeq α) : s.reversed = s.items.reverse := by
  obtain ⟨all, fronts, rest⟩ := s.takeAll_walk (List.replicate s.size .back)
  rw [List.take_replicate, List.count_replicate, if_neg (by decide), List.length_eq_zero_iff] at fronts
  rw [List.length_replicate, Nat.sub_self, List.length_eq_zero_iff] at rest
  rw [fronts, rest, List.append_nil, List.nil_append] at all
  rw [reversed, ← all, List.reverse_reverse]

/-- The sequence is the one of these elements, the first at `start`, and all that is asked of it is
answered from them. -/
structure Represents (s : SlotSeq α) (start : Nat) (xs : List α) : Prop where
  same : s = (startingAt start).append xs
  size : s.size = xs.length
  next : s.next = start + totalWidth xs
  at? : ∀ i, s.at? i = xs[i]?.map fun x => (start + totalWidth (xs.take i), x)
  items : ∀ i, s.items[i]? = (s.at? i).map fun (offset, x) => (offset, i, x)
  reversed : s.reversed = s.items.reverse
  /-- Each element is met once, from whichever side it is asked for, until none is left. -/
  walk : ∀ sides, let taken := s.walk.takeAll sides
    taken.fronts ++ taken.rest.items ++ taken.backs.reverse = s.items ∧
      taken.fronts.length = (sides.take s.size).count .front ∧
      taken.rest.items.length = s.size - sides.length
  pop_nil : xs = [] → s.pop? = none
  pop_concat : ∀ ys x, xs = ys ++ [x] →
    s.pop? = some ((start + totalWidth ys, ys.length, x), (startingAt start).append ys)
  pop_push : ∀ x, (s.push x).pop? = some ((s.next, s.size, x), s)
  lookup : ∀ offset i x, s.lookup offset = .found i x ↔ s.at? i = some (offset, x)

/-- Whatever was pushed, popped, cleared and appended, each element is where the widths of those
before it put it, walks from either side meet every element, and an offset is looked up to find the
element that starts there. -/
theorem edited_represents (start : Nat) (edits : List (SlotEdit α))
    (wide : ∀ e ∈ edits, ∀ x ∈ e.added, 0 < width x) :
    (edited start edits).Represents start (SlotEdit.listing edits) := by
  have holds := holds_edited start edits
  have own := start_edited start edits
  have wide := SlotEdit.forall_mem_listing wide
  refine ⟨edited_eq start edits, holds.size_eq, ?_, fun i => ?_, getElem?_items _, reversed_eq _,
    takeAll_walk _, fun none => ?_, fun ys x split => ?_, pop?_push _,
    fun _ _ _ => holds.lookup_eq_found wide⟩
  · rw [holds.next, own]
  · rw [holds.at?_eq, own]
  · rw [edited_eq, none]
    rfl
  · have before : ((startingAt start).append ys).Holds ys := (holds_startingAt start).append ys
    rw [edited_eq, split, append_concat, pop?_push, before.next, before.size_eq, start_append]
    rfl

theorem edited_represents_pool :
    let s : SlotSeq BaseType := edited 1 [.push .int, .push .long, .pop, .extend [.double, .char]]
    s.items = [(1, 0, .int), (2, 1, .double), (4, 2, .char)] ∧ s.next = 5 ∧
      s.reversed = s.items.reverse ∧ s.lookup 4 = .found 2 .char ∧ s.lookup 3 ≠ .found 1 .double := by
  intro s
  have wide (b : BaseType) : 0 < width b := by cases b <;> decide
  have all := edited_represents 1 [.push BaseType.int, .push .long, .pop, .extend [.double, .char]]
    fun _ _ x _ => wide x
  refine ⟨rfl, all.next, all.reversed, (all.lookup 4 2 _).2 rfl, fun found => ?_⟩
  cases (all.lookup 3 1 _).1 found

/-- A lookup that finds nothing takes an offset in the slots of the last element for one behind all
elements, and tells any other rightly. All are told rightly if the last element takes up one slot. -/
theorem lookup_classified (start : Nat) (edits : List (SlotEdit α))
    (wide : ∀ e ∈ edits, ∀ x ∈ e.added, 0 < width x) :
    let s : SlotSeq α := edited start edits
    (∀ offset, start ≤ offset →
      (s.lookup offset = .beyond ↔ s.next ≤ offset ∨ s.Splits offset s.size) ∧
      (∀ i, s.lookup offset = .inside i ↔ s.Splits offset i ∧ i ≠ s.size) ∧
      (s.Classifies offset ↔ ¬ s.Splits offset s.size)) ∧
    ((∀ offset, start ≤ offset → s.Classifies offset) ↔ ∀ x, s.last? = some x → width x = 1) := by
  intro s
  have holds : s.Holds (SlotEdit.listing edits) := holds_edited start edits
  have own : s.start = start := start_edited start edits
  have wide := SlotEdit.forall_mem_listing wide
  rw [← own]
  exact ⟨fun _ least => ⟨holds.lookup_eq_beyond wide least, fun _ => holds.lookup_eq_inside wide least,
    holds.classifies_iff wide least⟩, holds.classifies_all wide⟩

theorem lookup_classified_wideLast :
    let s : SlotSeq BaseType := edited 0 [.push .int, .pop, .push .long]
    s.entries = #[(0, .long)] ∧ s.next = 2 ∧ s.lookup 1 = .beyond ∧ s.Splits 1 1 ∧ ¬ s.Classifies 1 := by
  intro s
  have wide (b : BaseType) : 0 < width b := by cases b <;> decide
  have splits : s.Splits 1 1 := ⟨0, 0, .long, rfl, rfl, by decide, by decide⟩
  obtain ⟨told, _⟩ := lookup_classified 0 [.push BaseType.int, .pop, .push .long]
    fun _ _ b _ => wide b
  obtain ⟨beyond, _, classifies⟩ := told 1 (by decide)
  exact ⟨rfl, rfl, beyond.2 (.inr splits), splits, fun right => classifies.1 right splits⟩

end SlotSeq

end StackMaps
