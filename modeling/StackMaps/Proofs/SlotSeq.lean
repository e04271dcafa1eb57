import StackMaps.SlotSeq

/-! A sequence that elements were pushed to has each of them at the start of its slots, and looking a
slot up finds the element that starts there. -/

namespace StackMaps

variable {α : Type} [SlotWidth α]

def placed (start : Nat) : List α → List (Nat × α)
  | [] => []
  | x :: xs => (start, x) :: placed (start + width x) xs

theorem placed_append (start : Nat) (xs ys : List α) :
    placed start (xs ++ ys) = placed start xs ++ placed (start + totalWidth xs) ys := by
  induction xs generalizing start with
  | nil => simp [placed, totalWidth]
  | cons x xs ih => simp [placed, totalWidth, ih, Nat.add_assoc]

theorem totalWidth_append (xs ys : List α) :
    totalWidth (xs ++ ys) = totalWidth xs + totalWidth ys := by
  induction xs with
  | nil => simp [totalWidth]
  | cons x xs ih => simp [totalWidth, ih, Nat.add_assoc]

theorem totalWidth_take_succ {xs : List α} {k : Nat} {x : α} (there : xs[k]? = some x) :
    totalWidth (xs.take (k + 1)) = totalWidth (xs.take k) + width x := by
  rw [List.take_add_one, there, totalWidth_append]
  rfl

theorem totalWidth_take_le (xs : List α) (k : Nat) : totalWidth (xs.take k) ≤ totalWidth xs := by
  have whole := congrArg totalWidth (List.take_append_drop k xs)
  rw [totalWidth_append] at whole
  omega

theorem totalWidth_take_mono (xs : List α) {i j : Nat} (le : i ≤ j) :
    totalWidth (xs.take i) ≤ totalWidth (xs.take j) := by
  have first := totalWidth_take_le (xs.take j) i
  rwa [List.take_take, Nat.min_eq_left le] at first

theorem exists_of_lt_totalWidth {xs : List α} {i : Nat} (inside : i < totalWidth xs) :
    ∃ k x, xs[k]? = some x ∧ totalWidth (xs.take k) ≤ i ∧ i < totalWidth (xs.take k) + width x := by
  induction xs generalizing i with
  | nil => exact absurd inside (Nat.not_lt_zero i)
  | cons y ys ih =>
    rw [totalWidth] at inside
    by_cases own : i < width y
    · exact ⟨0, y, rfl, Nat.zero_le i, by simpa [totalWidth] using own⟩
    · obtain ⟨k, x, there, low, high⟩ := ih (i := i - width y) (by omega)
      refine ⟨k + 1, x, there, ?_, ?_⟩ <;>
      · rw [List.take_succ_cons, totalWidth]
        omega

theorem getElem?_placed (start : Nat) (xs : List α) (i : Nat) :
    (placed start xs)[i]? = xs[i]?.map fun x => (start + totalWidth (xs.take i), x) := by
  induction xs generalizing start i with
  | nil => rfl
  | cons x xs ih =>
    cases i with
    | zero => rfl
    | succ i =>
      rw [placed, List.getElem?_cons_succ, ih, List.getElem?_cons_succ, List.take_succ_cons,
        totalWidth, Nat.add_assoc]

theorem map_placed (start : Nat) (xs : List α) : (placed start xs).map (·.2) = xs := by
  induction xs generalizing start with
  | nil => rfl
  | cons x xs ih => simp [placed, ih]

theorem le_of_mem_placed {start offset : Nat} {x : α} {xs : List α}
    (there : (offset, x) ∈ placed start xs) :
    start ≤ offset ∧ offset + width x ≤ start + totalWidth xs := by
  induction xs generalizing start with
  | nil => simp [placed] at there
  | cons y ys ih =>
    simp only [placed, List.mem_cons, Prod.mk.injEq] at there
    obtain ⟨rfl, rfl⟩ | there := there
    · simp only [totalWidth]
      omega
    · have := ih there
      simp only [totalWidth]
      omega

theorem placed_pairwise {start : Nat} {xs : List α} (wide : ∀ x ∈ xs, 0 < width x) :
    (placed start xs).Pairwise fun a b => a.1 < b.1 := by
  induction xs generalizing start with
  | nil => exact .nil
  | cons x xs ih =>
    have own : 0 < width x := wide x List.mem_cons_self
    refine .cons (fun (offset, y) there => ?_) (ih fun y there => wide y (List.mem_cons_of_mem x there))
    have := le_of_mem_placed there
    simp only
    omega

namespace SlotSeq

structure Holds (s : SlotSeq α) (xs : List α) : Prop where
  entries : s.entries.toList = placed s.start xs
  next : s.next = s.start + totalWidth xs

variable {s : SlotSeq α} {xs : List α}

theorem holds_startingAt (start : Nat) : (startingAt start : SlotSeq α).Holds [] := ⟨rfl, rfl⟩

theorem Holds.push (holds : s.Holds xs) (x : α) : (s.push x).Holds (xs ++ [x]) where
  entries := by
    simp [SlotSeq.push, holds.entries, holds.next, placed_append, placed]
  next := by
    simp only [SlotSeq.push, holds.next, totalWidth_append, totalWidth]
    omega

theorem append_append (s : SlotSeq α) (xs ys : List α) :
    s.append (xs ++ ys) = (s.append xs).append ys := List.foldl_append

theorem append_concat (s : SlotSeq α) (xs : List α) (x : α) :
    s.append (xs ++ [x]) = (s.append xs).push x := append_append s xs [x]

theorem start_append (s : SlotSeq α) (xs : List α) : (s.append xs).start = s.start := by
  induction xs generalizing s with
  | nil => rfl
  | cons x xs ih => exact ih (s.push x)

theorem Holds.append (holds : s.Holds xs) (ys : List α) : (s.append ys).Holds (xs ++ ys) := by
  induction ys generalizing s xs with
  | nil => rwa [List.append_nil]
  | cons y ys ih =>
    rw [List.append_cons]
    exact ih (holds.push y)

theorem pop?_push (s : SlotSeq α) (x : α) : (s.push x).pop? = some ((s.next, s.size, x), s) := by
  simp [pop?, push, size]

theorem Holds.toList (holds : s.Holds xs) : s.toList = xs := by
  rw [SlotSeq.toList, holds.entries, map_placed]

omit [SlotWidth α] in
theorem mem_of_lookup {offset : Nat} {x : α}
    (there : (s.lookup offset).toOption = some x) : (offset, x) ∈ s.entries := by
  simp only [lookup] at there
  have missed : ∀ p : Prop, [Decidable p] → ∀ i : Nat,
      (if p then SlotLookup.beyond else .inside i : SlotLookup α).toOption = none := by
    intro p _ i
    split <;> rfl
  split at there
  next o y entry =>
    split at there
    next here =>
      cases there
      obtain ⟨_, rfl⟩ := here
      exact Array.mem_of_getElem? entry
    next =>
      rw [missed] at there
      cases there
  next =>
    rw [missed] at there
    cases there

/-- The entries below `r` start at or before the offset, and no others do. -/
structure Ranks (entries : Array (Nat × α)) (offset r : Nat) : Prop where
  inside : r ≤ entries.size
  before : ∀ i (_ : i < r), (entries[i]).1 ≤ offset
  after : ∀ i (_ : r ≤ i) (_ : i < entries.size), offset < (entries[i]).1

omit [SlotWidth α] in
/-- Bisection counts the entries that start at or before the offset. -/
theorem ranks_rankIn {entries : Array (Nat × α)} {offset : Nat}
    (sorted : ∀ i j (_ : i < j) (_ : j < entries.size), (entries[i]).1 < (entries[j]).1)
    {fuel lo hi : Nat} (enough : hi ≤ lo + fuel) (order : lo ≤ hi) (inside : hi ≤ entries.size)
    (before : ∀ i (_ : i < lo), (entries[i]).1 ≤ offset)
    (after : ∀ i (_ : hi ≤ i) (_ : i < entries.size), offset < (entries[i]).1) :
    Ranks entries offset (rankIn entries offset fuel lo hi) := by
  induction fuel generalizing lo hi with
  | zero =>
    rw [rankIn]
    exact ⟨by omega, before, fun i high => after i (by omega)⟩
  | succ fuel ih =>
    rw [rankIn]
    split
    next apart =>
      have middle : (lo + hi) / 2 < entries.size := by omega
      simp only [Array.getElem?_eq_getElem middle]
      split
      next low =>
        refine ih (by omega) (by omega) inside (fun i less => ?_) after
        by_cases here : i = (lo + hi) / 2
        · subst here
          exact low
        · have := sorted i ((lo + hi) / 2) (by omega) middle
          omega
      next high =>
        refine ih (by omega) (by omega) (by omega) before (fun i less small => ?_)
        by_cases here : (lo + hi) / 2 = i
        · subst here
          omega
        · have := sorted ((lo + hi) / 2) i (by omega) small
          omega
    next meet => exact ⟨by omega, before, fun i high => after i (by omega)⟩

theorem Holds.sorted (holds : s.Holds xs) (wide : ∀ x ∈ xs, 0 < width x) (i j : Nat) (first : i < j)
    (inside : j < s.entries.size) : (s.entries[i]).1 < (s.entries[j]).1 := by
  have pairs : s.entries.toList.Pairwise fun a b => a.1 < b.1 := by
    rw [holds.entries]
    exact placed_pairwise wide
  exact List.pairwise_iff_getElem.1 pairs i j _ _ first

theorem Holds.at?_eq (holds : s.Holds xs) (i : Nat) :
    s.at? i = xs[i]?.map fun x => (s.start + totalWidth (xs.take i), x) := by
  rw [at?, ← Array.getElem?_toList, holds.entries, getElem?_placed]

theorem Holds.size_eq (holds : s.Holds xs) : s.size = xs.length := by
  rw [SlotSeq.size, ← Array.length_toList, ← List.length_map (·.2), holds.entries, map_placed]

theorem Holds.rank_eq (holds : s.Holds xs) (wide : ∀ x ∈ xs, 0 < width x) {offset r : Nat}
    (ranks : Ranks s.entries offset r) : s.rank offset = r := by
  have own : Ranks s.entries offset (s.rank offset) :=
    ranks_rankIn (holds.sorted wide) (by simp [SlotSeq.size]) (Nat.zero_le _) (Nat.le_refl _) (by simp)
      fun i high inside => absurd inside (Nat.not_lt.2 high)
  have inside := ranks.inside
  have inside' := own.inside
  obtain less | same | more := Nat.lt_trichotomy (s.rank offset) r
  · have before := ranks.before _ less
    have after := own.after _ (Nat.le_refl _) (by omega)
    omega
  · exact same
  · have before := own.before _ more
    have after := ranks.after _ (Nat.le_refl _) (by omega)
    omega

omit [SlotWidth α] in
theorem lookup_of_rank {offset i : Nat} {x : α} (rank : s.rank offset = i + 1)
    (there : s.at? i = some (offset, x)) : s.lookup offset = .found i x := by
  rw [at?] at there
  simp [lookup, rank, there]

omit [SlotWidth α] in
theorem lookup_of_missed {offset : Nat} (missed : ∀ i x, s.at? i ≠ some (offset, x)) :
    s.lookup offset = if s.rank offset = s.size then .beyond else .inside (s.rank offset) := by
  rw [lookup]
  split
  next o x entry =>
    rw [if_neg]
    rintro ⟨_, rfl⟩
    exact missed _ x entry
  next => rfl

theorem Holds.ranks (holds : s.Holds xs) {offset r : Nat} (inside : r ≤ xs.length)
    (low : ∀ i, i + 1 = r → s.start + totalWidth (xs.take i) ≤ offset)
    (high : r < xs.length → offset < s.start + totalWidth (xs.take r)) : Ranks s.entries offset r := by
  have size : s.entries.size = xs.length := holds.size_eq
  have entry (i : Nat) (inside : i < s.entries.size) :
      (s.entries[i]).1 = s.start + totalWidth (xs.take i) := by
    have there := holds.at?_eq i
    rw [at?, Array.getElem?_eq_getElem inside, List.getElem?_eq_getElem (by omega)] at there
    exact congrArg Prod.fst (Option.some.inj there)
  refine ⟨by omega, fun i less => ?_, fun i least inside => ?_⟩
  · have before := totalWidth_take_mono xs (show i ≤ r - 1 by omega)
    have last := low (r - 1) (by omega)
    rw [entry]
    omega
  · have after := totalWidth_take_mono xs least
    have next := high (by omega)
    rw [entry]
    omega

theorem Holds.at?_eq_some (holds : s.Holds xs) {i offset : Nat} {x : α} :
    s.at? i = some (offset, x) ↔ xs[i]? = some x ∧ offset = s.start + totalWidth (xs.take i) := by
  rw [holds.at?_eq, Option.map_eq_some_iff]
  constructor
  · rintro ⟨y, there, same⟩
    cases same
    exact ⟨there, rfl⟩
  · rintro ⟨there, rfl⟩
    exact ⟨x, there, rfl⟩

theorem Holds.rank_within (holds : s.Holds xs) (wide : ∀ x ∈ xs, 0 < width x)
    {offset i start : Nat} {x : α} (there : s.at? i = some (start, x)) (low : start ≤ offset)
    (high : offset < start + width x) : s.rank offset = i + 1 := by
  obtain ⟨place, rfl⟩ := holds.at?_eq_some.1 there
  have inside := (List.getElem?_eq_some_iff.1 place).1
  refine holds.rank_eq wide (holds.ranks inside (fun j same => ?_) fun _ => ?_)
  · obtain rfl : j = i := by omega
    exact low
  · rw [totalWidth_take_succ place]
    omega

theorem Holds.rank_of_at? (holds : s.Holds xs) (wide : ∀ x ∈ xs, 0 < width x) {offset i : Nat} {x : α}
    (there : s.at? i = some (offset, x)) : s.rank offset = i + 1 := by
  have own := wide x (List.mem_of_getElem? (holds.at?_eq_some.1 there).1)
  exact holds.rank_within wide there (Nat.le_refl _) (Nat.lt_add_of_pos_right own)

theorem Holds.lookup_eq_found (holds : s.Holds xs) (wide : ∀ x ∈ xs, 0 < width x) {offset i : Nat}
    {x : α} : s.lookup offset = .found i x ↔ s.at? i = some (offset, x) := by
  refine ⟨fun found => ?_, fun there => lookup_of_rank (holds.rank_of_at? wide there) there⟩
  by_cases starts : ∃ j y, s.at? j = some (offset, y)
  · obtain ⟨j, y, there⟩ := starts
    rw [lookup_of_rank (holds.rank_of_at? wide there) there] at found
    cases found
    exact there
  · rw [lookup_of_missed fun j y there => starts ⟨j, y, there⟩] at found
    split at found <;> cases found

theorem Holds.lookup_eq_some (holds : s.Holds xs) (wide : ∀ x ∈ xs, 0 < width x) {offset : Nat}
    {x : α} : (s.lookup offset).toOption = some x ↔ (offset, x) ∈ placed s.start xs := by
  rw [← holds.entries, ← Array.mem_def]
  refine ⟨mem_of_lookup, fun there => ?_⟩
  obtain ⟨i, here⟩ := Array.mem_iff_getElem?.1 there
  rw [(holds.lookup_eq_found wide).2 here]
  rfl

/-- The offset is in the slots of the element before this index, and is not the first of them. -/
def Splits (s : SlotSeq α) (offset i : Nat) : Prop :=
  ∃ k start x, i = k + 1 ∧ s.at? k = some (start, x) ∧ start < offset ∧ offset < start + width x

theorem Holds.starts_or_splits (holds : s.Holds xs) {offset : Nat} (least : s.start ≤ offset) :
    (∃ i x, s.at? i = some (offset, x)) ∨ (∃ i, s.Splits offset i) ∨ s.next ≤ offset := by
  by_cases inside : s.next ≤ offset
  · exact .inr (.inr inside)
  · rw [holds.next] at inside
    obtain ⟨k, x, there, low, high⟩ := exists_of_lt_totalWidth
      (show offset - s.start < totalWidth xs by omega)
    by_cases first : offset = s.start + totalWidth (xs.take k)
    · exact .inl ⟨k, x, holds.at?_eq_some.2 ⟨there, first⟩⟩
    · exact .inr (.inl ⟨k + 1, k, _, x, rfl, holds.at?_eq_some.2 ⟨there, rfl⟩, by omega, by omega⟩)

theorem Holds.lookup_of_splits (holds : s.Holds xs) (wide : ∀ x ∈ xs, 0 < width x) {offset i : Nat}
    (splits : s.Splits offset i) :
    s.lookup offset = if i = s.size then .beyond else .inside i := by
  obtain ⟨k, start, x, rfl, there, low, high⟩ := splits
  have rank := holds.rank_within wide there (Nat.le_of_lt low) high
  rw [← rank]
  -- An element that starts at the offset would have the same rank, so it would be this one.
  refine lookup_of_missed fun i y starts => ?_
  obtain rfl : i = k := by
    have := holds.rank_of_at? wide starts
    omega
  rw [there] at starts
  cases starts
  exact Nat.lt_irrefl _ low

theorem Holds.lookup_of_next_le (holds : s.Holds xs) (wide : ∀ x ∈ xs, 0 < width x) {offset : Nat}
    (behind : s.next ≤ offset) : s.lookup offset = .beyond := by
  rw [holds.next] at behind
  have rank : s.rank offset = s.size := by
    rw [holds.size_eq]
    refine holds.rank_eq wide (holds.ranks (Nat.le_refl _) (fun i _ => ?_) fun less => ?_)
    · have := totalWidth_take_le xs i
      omega
    · exact absurd less (Nat.lt_irrefl _)
  rw [lookup_of_missed fun i x starts => ?_, if_pos rank]
  obtain ⟨place, start⟩ := holds.at?_eq_some.1 starts
  have some := wide x (List.mem_of_getElem? place)
  have next := totalWidth_take_le xs (i + 1)
  rw [totalWidth_take_succ place] at next
  omega

theorem Holds.start_le_of_splits (holds : s.Holds xs) {offset i : Nat} (splits : s.Splits offset i) :
    s.start ≤ offset := by
  obtain ⟨k, start, x, rfl, there, low, high⟩ := splits
  have := (holds.at?_eq_some.1 there).2
  omega

theorem Holds.lt_next_of_splits (holds : s.Holds xs) {offset i : Nat} (splits : s.Splits offset i) :
    offset < s.next := by
  obtain ⟨k, start, x, rfl, there, low, high⟩ := splits
  obtain ⟨place, rfl⟩ := holds.at?_eq_some.1 there
  have next := totalWidth_take_le xs (k + 1)
  rw [totalWidth_take_succ place] at next
  rw [holds.next]
  omega

theorem Holds.lookup_eq_beyond (holds : s.Holds xs) (wide : ∀ x ∈ xs, 0 < width x) {offset : Nat}
    (least : s.start ≤ offset) :
    s.lookup offset = .beyond ↔ s.next ≤ offset ∨ s.Splits offset s.size := by
  constructor
  · intro beyond
    obtain ⟨i, x, there⟩ | ⟨i, splits⟩ | behind := holds.starts_or_splits least
    · rw [(holds.lookup_eq_found wide).2 there] at beyond
      cases beyond
    · rw [holds.lookup_of_splits wide splits] at beyond
      split at beyond
      next last => exact .inr (last ▸ splits)
      next => cases beyond
    · exact .inl behind
  · rintro (behind | splits)
    · exact holds.lookup_of_next_le wide behind
    · rw [holds.lookup_of_splits wide splits, if_pos rfl]

theorem Holds.lookup_eq_inside (holds : s.Holds xs) (wide : ∀ x ∈ xs, 0 < width x) {offset i : Nat}
    (least : s.start ≤ offset) : s.lookup offset = .inside i ↔ s.Splits offset i ∧ i ≠ s.size := by
  constructor
  · intro inside
    obtain ⟨j, x, there⟩ | ⟨j, splits⟩ | behind := holds.starts_or_splits least
    · rw [(holds.lookup_eq_found wide).2 there] at inside
      cases inside
    · rw [holds.lookup_of_splits wide splits] at inside
      split at inside
      next => cases inside
      next before =>
        cases inside
        exact ⟨splits, before⟩
    · rw [holds.lookup_of_next_le wide behind] at inside
      cases inside
  · rintro ⟨splits, before⟩
    rw [holds.lookup_of_splits wide splits, if_neg before]

/-- An offset at which no element starts is told to be behind all elements, or in the slots of one. -/
def Classifies (s : SlotSeq α) (offset : Nat) : Prop :=
  (s.lookup offset = .beyond ↔ s.next ≤ offset) ∧
    ∀ i, s.lookup offset = .inside i ↔ s.Splits offset i

/-- Only offsets in the slots of the last element are told wrong. -/
theorem Holds.classifies_iff (holds : s.Holds xs) (wide : ∀ x ∈ xs, 0 < width x) {offset : Nat}
    (least : s.start ≤ offset) : s.Classifies offset ↔ ¬ s.Splits offset s.size := by
  constructor
  · rintro ⟨beyond, _⟩ splits
    have behind := beyond.1 ((holds.lookup_eq_beyond wide least).2 (.inr splits))
    exact absurd (holds.lt_next_of_splits splits) (Nat.not_lt.2 behind)
  · intro whole
    refine ⟨?_, fun i => ?_⟩
    · rw [holds.lookup_eq_beyond wide least, or_iff_left whole]
    · rw [holds.lookup_eq_inside wide least, and_iff_left_iff_imp]
      rintro splits rfl
      exact whole splits

theorem exists_splits_size :
    (∃ offset, s.Splits offset s.size) ↔ ∃ x, s.last? = some x ∧ 1 < width x := by
  have last : s.last? = (s.at? (s.size - 1)).map (·.2) := rfl
  constructor
  · rintro ⟨offset, k, start, x, size, there, low, high⟩
    rw [last, show s.size - 1 = k by omega, there]
    exact ⟨x, rfl, by omega⟩
  · rintro ⟨x, there, broad⟩
    rw [last, Option.map_eq_some_iff] at there
    obtain ⟨⟨start, y⟩, there, rfl⟩ := there
    have inside : s.size - 1 < s.size := (Array.getElem?_eq_some_iff.1 there).1
    exact ⟨start + 1, s.size - 1, start, y, by omega, there, Nat.lt_succ_self start,
      Nat.add_lt_add_left broad start⟩

theorem Holds.last?_eq (holds : s.Holds xs) : s.last? = xs.getLast? := by
  rw [SlotSeq.last?, ← Array.getLast?_toList, ← List.getLast?_map, holds.entries, map_placed]

theorem Holds.classifies_all (holds : s.Holds xs) (wide : ∀ x ∈ xs, 0 < width x) :
    (∀ offset, s.start ≤ offset → s.Classifies offset) ↔ ∀ x, s.last? = some x → width x = 1 := by
  constructor
  · intro all x last
    have own : 0 < width x := wide x (List.mem_of_getLast? (holds.last?_eq ▸ last))
    obtain one | broad := Nat.eq_or_lt_of_le own
    · exact one.symm
    · obtain ⟨offset, splits⟩ := exists_splits_size.2 ⟨x, last, broad⟩
      have least := holds.start_le_of_splits splits
      exact absurd splits ((holds.classifies_iff wide least).1 (all offset least))
  · intro narrow offset least
    rw [holds.classifies_iff wide least]
    intro splits
    obtain ⟨x, last, broad⟩ := exists_splits_size.1 ⟨offset, splits⟩
    exact absurd (narrow x last) (Nat.ne_of_gt broad)

end SlotSeq
end StackMaps
