import StackMaps.Name

/-! The segments of a text are what stands between its slashes. Those of a binary name have a character
or more, and none that is reserved. -/

namespace StackMaps

theorem segments_slash (cs : List Char) : segments ('/' :: cs) = [] :: segments cs := rfl

theorem segments_ne_nil (cs : List Char) : segments cs ≠ [] := by
  cases cs with
  | nil => exact List.cons_ne_nil _ _
  | cons d cs =>
    rw [segments]
    split
    · exact List.cons_ne_nil _ _
    · split <;> exact List.cons_ne_nil _ _

theorem segments_cons {c : Char} (cs : List Char) (inner : c ≠ '/') :
    ∃ s ss, segments cs = s :: ss ∧ segments (c :: cs) = (c :: s) :: ss := by
  obtain ⟨s, ss, split⟩ := List.exists_cons_of_ne_nil (segments_ne_nil cs)
  exact ⟨s, ss, split, by rw [segments, if_neg inner, split]⟩

theorem segments_eq (cs : List Char) : segments cs = cs.splitOn '/' := by
  induction cs with
  | nil => exact (List.splitOn_nil '/').symm
  | cons c cs ih =>
    rw [List.splitOn_cons_eq_if_modifyHead, ← ih]
    by_cases slash : c = '/'
    · subst slash
      rw [segments_slash, if_pos (beq_self_eq_true '/')]
    · obtain ⟨s, ss, first, whole⟩ := segments_cons cs slash
      rw [whole, first, if_neg (by simpa using slash)]
      rfl

theorem length_segments (cs : List Char) : (segments cs).length = cs.count '/' + 1 := by
  induction cs with
  | nil => rfl
  | cons c cs ih =>
    by_cases slash : c = '/'
    · subst slash
      rw [segments_slash, List.length_cons, ih, List.count_cons_self]
    · obtain ⟨s, ss, first, whole⟩ := segments_cons cs slash
      rw [List.count_cons_of_ne slash, ← ih, whole, first]
      rfl

theorem slash_notMem_of_mem_segments {cs s : List Char} (there : s ∈ segments cs) : '/' ∉ s := by
  induction cs generalizing s with
  | nil =>
    obtain rfl := List.mem_singleton.1 there
    exact List.not_mem_nil
  | cons c cs ih =>
    by_cases slash : c = '/'
    · subst slash
      rw [segments_slash] at there
      obtain rfl | there := List.mem_cons.1 there
      · exact List.not_mem_nil
      · exact ih there
    · obtain ⟨t, ss, first, whole⟩ := segments_cons cs slash
      rw [whole] at there
      rw [first] at ih
      obtain rfl | there := List.mem_cons.1 there
      · exact List.not_mem_cons_of_ne_of_not_mem (Ne.symm slash) (ih List.mem_cons_self)
      · exact ih (List.mem_cons_of_mem t there)

theorem mem_segments {cs : List Char} {c : Char} (there : c ∈ cs) (inner : c ≠ '/') :
    ∃ s ∈ segments cs, c ∈ s := by
  induction cs with
  | nil => cases there
  | cons d cs ih =>
    by_cases slash : d = '/'
    · subst slash
      obtain ⟨s, member, inside⟩ := ih (List.mem_of_ne_of_mem inner there)
      exact ⟨s, List.mem_cons_of_mem _ member, inside⟩
    · obtain ⟨s, ss, first, whole⟩ := segments_cons cs slash
      rw [whole]
      obtain rfl | there := List.mem_cons.1 there
      · exact ⟨c :: s, List.mem_cons_self, List.mem_cons_self⟩
      · obtain ⟨t, member, inside⟩ := ih there
        rw [first] at member
        obtain rfl | member := List.mem_cons.1 member
        · exact ⟨d :: t, List.mem_cons_self, List.mem_cons_of_mem _ inside⟩
        · exact ⟨t, List.mem_cons_of_mem _ member, inside⟩

theorem unqualifiedFault_eq_none {s : List Char} :
    unqualifiedFault s = none ↔ s ≠ [] ∧ ∀ c ∈ s, isReserved c = false := by
  unfold unqualifiedFault
  by_cases reserved : s.any isReserved = true
  · rw [if_pos reserved]
    simp only [reduceCtorEq, false_iff, not_and]
    intro _ plain
    obtain ⟨c, there, is⟩ := List.any_eq_true.1 reserved
    rw [plain c there] at is
    cases is
  · have plain : ∀ c ∈ s, isReserved c = false := by simpa using reserved
    rw [if_neg reserved]
    cases s with
    | nil => simp
    | cons c cs => simpa using plain

namespace BinaryName

variable {n : BinaryName}

theorem plain_of_mem {s : List Char} (there : s ∈ n.segments) :
    s ≠ [] ∧ ∀ c ∈ s, isReserved c = false := by
  have valid := n.valid
  unfold binaryFault at valid
  split at valid
  next => cases valid
  next => exact unqualifiedFault_eq_none.1 (List.findSome?_eq_none_iff.1 valid s there)

theorem ne_of_mem (n : BinaryName) {c : Char} (there : c ∈ n.text.toList) : c ≠ ';' ∧ c ≠ '[' := by
  by_cases slash : c = '/'
  · subst slash
    decide
  · obtain ⟨s, member, inside⟩ := mem_segments there slash
    have here := (plain_of_mem member).2 c inside
    simp only [isReserved, Bool.or_eq_false_iff, beq_eq_false_iff_ne] at here
    exact ⟨here.1.1.2, here.1.2⟩

theorem ofString_eq_ok {text : String} : ofString text = .ok n ↔ text = n.text := by
  unfold ofString
  split
  next valid =>
    constructor
    · intro ok
      cases ok
      rfl
    · rintro rfl
      rfl
  next e fault =>
    simp only [reduceCtorEq, false_iff]
    rintro rfl
    rw [n.valid] at fault
    cases fault

end BinaryName

end StackMaps
