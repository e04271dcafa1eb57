import StackMaps.Proofs.Hierarchy.Assignable
import StackMaps.Proofs.Hierarchy.Telling

/-! How far walks and searches may go is bounded by the number of classes there can be. They end before
that, so that of two hierarchies with the same classes each gives the same answers, whatever their
bounds. -/

namespace StackMaps.Hierarchy

variable {H H' : Hierarchy} (same : H'.find = H.find)

include same

theorem chainFrom_further {fuel fuel' : Nat} {seen : List BinaryName} {next : Option BinaryName}
    (enough : H.bound < seen.length + fuel) (more : fuel ≤ fuel') (nodup : seen.Nodup)
    (known : ∀ n ∈ seen, H.IsKnown n) :
    answer (H'.source.chainFrom fuel' seen next) = answer (H.source.chainFrom fuel seen next) := by
  induction fuel generalizing fuel' seen next with
  | zero =>
    have := length_le_bound nodup known
    omega
  | succ fuel ih =>
    cases fuel' with
    | zero => omega
    | succ fuel' =>
      cases next with
      | none => rw [chainFrom_nil, chainFrom_nil]
      | some n =>
        by_cases again : n ∈ seen
        · rw [chainFrom_seen again, chainFrom_seen again]
        · rw [chainFrom_new again, chainFrom_new again, same]
          cases found : H.find n with
          | none => rfl
          | some h =>
            have further := @ih fuel' (n :: seen) h.superclass (by simp only [List.length_cons]; omega)
              (Nat.le_of_succ_le_succ more) (List.nodup_cons.2 ⟨again, nodup⟩)
              (List.forall_mem_cons.2 ⟨⟨h, found⟩, known⟩)
            simp only [further]

theorem nextStep_further (wanted : BinaryName) (pending : List BinaryName) :
    (H'.source.nextStep wanted pending : SearchStep) = H.source.nextStep wanted pending := by
  induction pending with
  | nil => rfl
  | cons n rest ih => rw [nextStep_cons, nextStep_cons, same, ih]

theorem searchFrom_further {wanted : BinaryName} {withInterfaces : Bool} {fuel fuel' : Nat}
    {taken seen pending : List BinaryName} (enough : H.bound < taken.length + fuel)
    (more : fuel ≤ fuel') (searching : H.Searching wanted withInterfaces taken seen pending) :
    (H'.source.searchFrom wanted withInterfaces fuel' seen pending : Bool) =
      H.source.searchFrom wanted withInterfaces fuel seen pending := by
  induction fuel generalizing fuel' taken seen pending with
  | zero =>
    have := length_le_bound searching.taken_nodup searching.taken_known
    omega
  | succ fuel ih =>
    cases fuel' with
    | zero => omega
    | succ fuel' =>
      rw [searchFrom_succ, searchFrom_succ, nextStep_further same]
      obtain ⟨step, _⟩ | ⟨step, _⟩ | ⟨passed, n, h, rest, step, rfl, found, miss, unknown⟩ :=
        @nextStep_eq H wanted pending
      · rw [step]
      · rw [step]
      · rw [step]
        obtain ⟨_, searching⟩ := searching.expand found miss unknown
        exact ih (by simp only [List.length_cons]; omega) (Nat.le_of_succ_le_succ more) searching

variable (less : H.bound ≤ H'.bound)

theorem isInterface_further (n : BinaryName) : H'.isInterface n = H.isInterface n := by
  rw [isInterface, HeaderSource.isInterface, source, same]
  rfl

include less

theorem superclasses_further (n : BinaryName) :
    answer (H'.source.superclasses n) = answer (H.source.superclasses n) :=
  chainFrom_further same (Nat.lt_add_left 0 (Nat.lt_succ_self _)) (Nat.succ_le_succ less)
    List.nodup_nil (by simp)

theorem commonSuperclass_further (a b : BinaryName) :
    answer (H'.source.commonSuperclass a b) = answer (H.source.commonSuperclass a b) := by
  by_cases equal : a = b
  · rw [equal, answer_commonSuperclass_self, answer_commonSuperclass_self]
  · simp only [HeaderSource.commonSuperclass, if_neg equal, answer_bind, answer_require, same]
    cases H.find a with
    | none => rfl
    | some ha =>
      cases H.find b with
      | none => rfl
      | some hb =>
        change answer (if ha.isInterface || hb.isInterface then _ else _) =
          answer (if ha.isInterface || hb.isInterface then _ else _)
        split
        · rfl
        · simp only [answer_bind, superclasses_further same less]

theorem isSubclass_further (sub sup : BinaryName) : H'.isSubclass sub sup = H.isSubclass sub sup := by
  rw [isSubclass, isSubclass, HeaderSource.isSubclass, HeaderSource.isSubclass]
  split
  · rfl
  · have interface : (H'.source.isInterface sup : Bool) = H.source.isInterface sup :=
      isInterface_further same sup
    change H'.source.searchFrom sup (H'.source.isInterface sup : Bool) _ _ _ = _
    rw [interface]
    exact searchFrom_further same (Nat.lt_add_left 0 (Nat.lt_succ_self _)) (Nat.succ_le_succ less)
      (searching_start sup _ sub)

theorem isArrayAssignable_further (a b : ElementType) (i j : Nat) :
    (H'.source.isArrayAssignable a b i j : Bool) = H.source.isArrayAssignable a b i j := by
  induction i generalizing j with
  | zero =>
    cases j with
    | zero =>
      cases a <;> cases b
      case object.object a b => exact isSubclass_further same less a b
      all_goals rfl
    | succ j => rfl
  | succ i ih =>
    cases j with
    | zero => cases b <;> rfl
    | succ j => exact ih j

theorem isAssignable_further (sub sup : RefType) :
    H'.isAssignable sub sup = H.isAssignable sub sup := by
  cases sub <;> cases sup
  case object.object a b => exact isSubclass_further same less a b
  case array.array => exact isArrayAssignable_further same less _ _ _ _
  all_goals rfl

theorem ask_further (q : Question) : (H'.source.ask q : Reply) = H.source.ask q := by
  cases q with
  | lookup n => exact congrArg Reply.header (congrFun same n)
  | isInterface n => exact congrArg Reply.truth (isInterface_further same n)
  | commonSuperclass a b => exact congrArg Reply.superclass (commonSuperclass_further same less a b)
  | isAssignable sub sup => exact congrArg Reply.truth (isAssignable_further same less sub sup)

end StackMaps.Hierarchy
