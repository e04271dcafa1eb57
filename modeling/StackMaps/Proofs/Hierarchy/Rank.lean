import StackMaps.Proofs.Hierarchy.Superclass

/-! Where no two classes are each other's superclasses, going from a class to a common superclass goes
up: the number of superclasses gets smaller. -/

namespace StackMaps.Hierarchy

variable {H : Hierarchy}

/-- The classes are different, and each is a superclass of the other. -/
structure Circle (H : Hierarchy) (a b : BinaryName) : Prop where
  different : a ≠ b
  classa : H.isInterface a = false
  classb : H.isInterface b = false
  up : H.Inherits a b
  down : H.Inherits b a

/-- How often a merge can change a class: an interface can only become `java/lang/Object`, a class
can become each of its superclasses. -/
def rank (H : Hierarchy) (n : BinaryName) : Nat :=
  if n = .object then 0
  else if H.isInterface n = true then 1
  else
    match answer (H.source.superclasses n) with
    | .ok chain => chain.length + 1
    | .error _ => 1

theorem rank_object : H.rank .object = 0 := if_pos rfl

theorem rank_pos {n : BinaryName} (below : n ≠ .object) : 0 < H.rank n := by
  unfold rank
  rw [if_neg below]
  split
  · exact Nat.one_pos
  · split
    · exact Nat.succ_pos _
    · exact Nat.one_pos

theorem rank_class {n : BinaryName} {chain : List BinaryName} (below : n ≠ .object)
    (cls : H.isInterface n = false) (ok : answer (H.source.superclasses n) = .ok chain) :
    H.rank n = chain.length + 1 := by
  simp [rank, below, cls, ok]

theorem rank_le (n : BinaryName) : H.rank n ≤ H.bound + 1 := by
  unfold rank
  split
  · exact Nat.zero_le _
  · split
    · exact Nat.succ_le_succ (Nat.zero_le _)
    · split
      next ok => exact Nat.succ_le_succ (superclasses_length_le ok)
      next => exact Nat.succ_le_succ (Nat.zero_le _)

/-- A superclass of a class has fewer superclasses, unless the links form a circle. -/
theorem rank_lt_of_inherits (apart : ∀ a b, ¬ H.Circle a b) {c d : BinaryName} (different : c ≠ d)
    (cls : H.isInterface c = false) (below : c ≠ .object) (up : H.Inherits c d)
    {chain : List BinaryName} (ok : answer (H.source.superclasses c) = .ok chain) :
    H.rank d < H.rank c := by
  rw [rank_class below cls ok]
  have here : c ∈ chain := (mem_superclasses ok).2 (.refl c)
  by_cases top : d = .object
  · rw [top, rank_object]
    exact Nat.succ_pos _
  · by_cases interface : H.isInterface d = true
    · have one : H.rank d = 1 := by simp [rank, top, interface]
      rw [one]
      exact Nat.succ_lt_succ (List.length_pos_of_mem here)
    · have classd : H.isInterface d = false := by simpa using interface
      obtain ⟨chain', ok'⟩ := superclasses_ok fun m (up' : H.Inherits d m) =>
        isKnown_of_superclasses ok (up.trans up')
      rw [rank_class top classd ok']
      have within : c :: chain' ⊆ chain := by
        refine List.cons_subset.2 ⟨here, fun m member => ?_⟩
        exact (mem_superclasses ok).2 (up.trans ((mem_superclasses ok').1 member))
      have nodup : (c :: chain').Nodup := by
        refine List.nodup_cons.2 ⟨fun member => ?_, superclasses_nodup ok'⟩
        exact apart c d ⟨different, cls, classd, up, (mem_superclasses ok').1 member⟩
      exact Nat.succ_lt_succ (nodup.subperm within).length_le

theorem Common.rank_lt (rooted : H.IsRooted) (apart : ∀ a b, ¬ H.Circle a b) {a b c : BinaryName}
    (common : H.Common a b c) : c = a ∨ H.rank c < H.rank a := by
  have object : c = .object → c = a ∨ H.rank c < H.rank a := by
    rintro rfl
    by_cases top : a = .object
    · exact .inl top.symm
    · rw [rank_object]
      exact .inr (rank_pos top)
  cases common with
  | same equal result => exact .inl result
  | interface _ _ _ _ result => exact object result
  | nearest _ classa _ above candidates chaina chainb result =>
    cases found : candidates.find? (above.contains ·) with
    | none => exact object (by rw [result, found]; rfl)
    | some d =>
      rw [found, Option.getD_some] at result
      subst result
      have ina := List.find?_some found
      simp only [List.contains_iff_mem] at ina
      have up := (mem_superclasses chaina).1 ina
      by_cases same : c = a
      · exact .inl same
      · refine .inr (rank_lt_of_inherits apart (Ne.symm same) classa ?_ up chaina)
        rintro rfl
        exact same (rooted.eq_of_inherits up)

theorem Circle.symm {a b : BinaryName} (circle : H.Circle a b) : H.Circle b a :=
  ⟨circle.different.symm, circle.classb, circle.classa, circle.down, circle.up⟩

theorem Circle.inherits_back {a b m : BinaryName} (circle : H.Circle a b) (up : H.Inherits a m) :
    H.Inherits m a := by
  induction up with
  | refl => exact .refl a
  | @tail m n _ link ih =>
    obtain rfl | ⟨n', link', back⟩ := ih.eq_or_extends
    · obtain same | ⟨n', link', further⟩ := circle.up.eq_or_extends
      · exact absurd same circle.different
      · rw [link.unique link']
        exact further.trans circle.down
    · rw [link.unique link']
      exact back

theorem Circle.isKnown {a b m : BinaryName} (circle : H.Circle a b) (up : H.Inherits a m) :
    H.IsKnown m := by
  obtain rfl | ⟨_, link, _⟩ := (circle.inherits_back up).eq_or_extends
  · obtain same | ⟨_, link, _⟩ := circle.up.eq_or_extends
    · exact absurd same circle.different
    · exact link.isKnown
  · exact link.isKnown

/-- In a circle each class is the nearest superclass of itself that is one of the other, so that the
common superclass is the second class, whichever that is. -/
theorem Circle.common {a b : BinaryName} (circle : H.Circle a b) :
    answer (H.source.commonSuperclass a b) = .ok b := by
  obtain ⟨above, chaina⟩ := superclasses_ok fun m (up : H.Inherits a m) => circle.isKnown up
  obtain ⟨candidates, chainb⟩ := superclasses_ok fun m (up : H.Inherits b m) => circle.symm.isKnown up
  exact commonSuperclass_of_inherits circle.classa circle.classb circle.up chaina chainb

end StackMaps.Hierarchy
