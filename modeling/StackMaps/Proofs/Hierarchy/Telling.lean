import StackMaps.Proofs.Answer

/-! Questions about classes are put together from looking up classes and nothing else. Whatever looking
up a class does besides, if what it gives is fixed then so are all answers: they are those of a source
that has no effects. -/

namespace StackMaps

variable {m : Type → Type} [Monad m] {α β ε : Type}

/-- What computations give, whatever else they do. A computation of several steps gives what the last
one does, after what the steps before it give. -/
structure Telling (m : Type → Type) [Monad m] where
  Tells : {α : Type} → m α → α → Prop
  pure : ∀ {α : Type} (a : α), Tells (Pure.pure a) a
  bind : ∀ {α β : Type} {x : m α} {a : α} {f : α → m β} {b : β},
    Tells x a → Tells (f a) b → Tells (x >>= f) b

namespace Telling

variable (T : Telling m)

theorem map [LawfulMonad m] {x : m α} {a : α} (f : α → β) (first : T.Tells x a) :
    T.Tells (f <$> x) (f a) := by
  rw [← bind_pure_comp]
  exact T.bind first (T.pure _)

def Answers (x : ExceptT ε m α) (y : ExceptT ε Id α) : Prop := T.Tells x.run (answer y)

variable {x x' : ExceptT ε m α} {y y' : ExceptT ε Id α}

theorem answers_pure (a : α) : T.Answers (Pure.pure a : ExceptT ε m α) (Pure.pure a) := T.pure _

theorem answers_throw (e : ε) :
    T.Answers (MonadExcept.throw e : ExceptT ε m α) (MonadExcept.throw e) := T.pure _

theorem answers_bind {f : α → ExceptT ε m β} {f' : α → ExceptT ε Id β} (first : T.Answers x y)
    (next : ∀ a, T.Answers (f a) (f' a)) : T.Answers (x >>= f) (y >>= f') := by
  unfold Answers
  rw [ExceptT.run_bind, answer_bind]
  refine T.bind first ?_
  cases answer y with
  | ok a => exact next a
  | error e => exact T.pure _

theorem run_lift_bind [LawfulMonad m] {z : m α} {a : α} {f : α → ExceptT ε m β} {r : Except ε β}
    (first : T.Tells z a) (next : T.Tells (f a).run r) : T.Tells (liftM z >>= f).run r := by
  have same : (liftM z >>= f : ExceptT ε m β).run = z >>= fun a => (f a).run :=
    ExceptT.run_bind_lift z f
  rw [same]
  exact T.bind first next

theorem answers_lift_bind [LawfulMonad m] {z : m α} {a : Id α} {f : α → ExceptT ε m β}
    {f' : α → ExceptT ε Id β} (first : T.Tells z a) (next : T.Answers (f a) (f' a)) :
    T.Answers (liftM z >>= f) (liftM a >>= f') := T.run_lift_bind first next

theorem answers_ite {p : Prop} [Decidable p] (yes : p → T.Answers x y) (no : ¬ p → T.Answers x' y') :
    T.Answers (if p then x else x') (if p then y else y') := by
  by_cases h : p
  · rw [if_pos h, if_pos h]
    exact yes h
  · rw [if_neg h, if_neg h]
    exact no h

end Telling

namespace HeaderSource

structure Tells (T : Telling m) (s : HeaderSource m) (t : HeaderSource Id) : Prop where
  find : ∀ n, T.Tells (s.find n) (t.find n : Option ClassHeader)
  bound : s.bound = t.bound

variable {T : Telling m} {s : HeaderSource m} {t : HeaderSource Id}

theorem isInterface_tells (tells : s.Tells T t) (n : BinaryName) :
    T.Tells (s.isInterface n) (t.isInterface n : Bool) := by
  unfold HeaderSource.isInterface
  refine T.bind (tells.find n) ?_
  generalize t.find n = found
  cases found <;> exact T.pure _

theorem nextStep_tells (tells : s.Tells T t) (wanted : BinaryName) (pending : List BinaryName) :
    T.Tells (s.nextStep wanted pending) (t.nextStep wanted pending : SearchStep) := by
  induction pending with
  | nil => exact T.pure _
  | cons n rest ih =>
    unfold HeaderSource.nextStep
    split
    · exact T.pure _
    · refine T.bind (tells.find n) ?_
      generalize t.find n = found
      cases found with
      | some h => exact T.pure _
      | none => exact ih

theorem searchFrom_tells (tells : s.Tells T t) (wanted : BinaryName) (withInterfaces : Bool)
    (fuel : Nat) (seen pending : List BinaryName) :
    T.Tells (s.searchFrom wanted withInterfaces fuel seen pending)
      (t.searchFrom wanted withInterfaces fuel seen pending : Bool) := by
  induction fuel generalizing seen pending with
  | zero => exact T.pure _
  | succ fuel ih =>
    unfold HeaderSource.searchFrom
    refine T.bind (nextStep_tells tells wanted pending) ?_
    generalize t.nextStep wanted pending = step
    cases step with
    | exhausted => exact T.pure _
    | hit => exact T.pure _
    | expand h rest => exact ih _ _

theorem isSubclass_tells (tells : s.Tells T t) (sub sup : BinaryName) :
    T.Tells (s.isSubclass sub sup) (t.isSubclass sub sup : Bool) := by
  unfold HeaderSource.isSubclass
  split
  · exact T.pure _
  · refine T.bind (isInterface_tells tells sup) ?_
    rw [tells.bound]
    exact searchFrom_tells tells _ _ _ _ _

theorem isArrayAssignable_tells (tells : s.Tells T t) (a b : ElementType) (i j : Nat) :
    T.Tells (s.isArrayAssignable a b i j) (t.isArrayAssignable a b i j : Bool) := by
  induction i generalizing j with
  | zero =>
    cases j with
    | zero =>
      cases a <;> cases b
      case object.object a b => exact isSubclass_tells tells a b
      all_goals exact T.pure _
    | succ j => exact T.pure _
  | succ i ih =>
    cases j with
    | zero => cases b <;> exact T.pure _
    | succ j => exact ih j

theorem isAssignable_tells (tells : s.Tells T t) (a b : RefType) :
    T.Tells (s.isAssignable a b) (t.isAssignable a b : Bool) := by
  cases a <;> cases b
  case object.object a b => exact isSubclass_tells tells a b
  case array.array => exact isArrayAssignable_tells tells _ _ _ _
  all_goals exact T.pure _

variable [LawfulMonad m]

theorem require_tells (tells : s.Tells T t) (n : BinaryName) :
    T.Answers (s.require n) (t.require n) := by
  refine T.answers_lift_bind (tells.find n) ?_
  generalize t.find n = found
  cases found with
  | some h => exact T.answers_pure h
  | none => exact T.answers_throw n

theorem chainFrom_tells (tells : s.Tells T t) (fuel : Nat) (seen : List BinaryName)
    (next : Option BinaryName) : T.Answers (s.chainFrom fuel seen next) (t.chainFrom fuel seen next) := by
  induction fuel generalizing seen next with
  | zero => cases next <;> exact T.answers_pure _
  | succ fuel ih =>
    cases next with
    | none => exact T.answers_pure _
    | some n =>
      refine T.answers_ite (fun _ => T.answers_pure _) fun _ => ?_
      exact T.answers_bind (require_tells tells n) fun _ =>
        T.answers_bind (ih _ _) fun _ => T.answers_pure _

theorem superclasses_tells (tells : s.Tells T t) (n : BinaryName) :
    T.Answers (s.superclasses n) (t.superclasses n) := by
  unfold HeaderSource.superclasses
  rw [tells.bound]
  exact chainFrom_tells tells _ _ _

theorem commonSuperclass_tells (tells : s.Tells T t) (a b : BinaryName) :
    T.Answers (s.commonSuperclass a b) (t.commonSuperclass a b) := by
  refine T.answers_ite (fun _ => T.answers_pure _) fun _ => ?_
  refine T.answers_bind (require_tells tells a) fun _ => ?_
  refine T.answers_bind (require_tells tells b) fun _ => ?_
  refine T.answers_ite (fun _ => T.answers_pure _) fun _ => ?_
  refine T.answers_bind (superclasses_tells tells a) fun _ => ?_
  exact T.answers_bind (superclasses_tells tells b) fun _ => T.answers_pure _

end HeaderSource

inductive Question
  | lookup (n : BinaryName)
  | isInterface (n : BinaryName)
  | commonSuperclass (a b : BinaryName)
  | isAssignable (sub sup : RefType)

inductive Reply
  | header (found : Option ClassHeader)
  | truth (yes : Bool)
  | superclass (result : Except BinaryName BinaryName)

namespace HeaderSource

def ask (s : HeaderSource m) : Question → m Reply
  | .lookup n => .header <$> s.find n
  | .isInterface n => .truth <$> s.isInterface n
  | .commonSuperclass a b => .superclass <$> (s.commonSuperclass a b).run
  | .isAssignable sub sup => .truth <$> s.isAssignable sub sup

variable {T : Telling m} {s : HeaderSource m} {t : HeaderSource Id}

theorem ask_tells [LawfulMonad m] (tells : s.Tells T t) (q : Question) :
    T.Tells (s.ask q) (t.ask q : Reply) := by
  cases q with
  | lookup n => exact T.map Reply.header (tells.find n)
  | isInterface n => exact T.map Reply.truth (isInterface_tells tells n)
  | commonSuperclass a b => exact T.map Reply.superclass (commonSuperclass_tells tells a b)
  | isAssignable sub sup => exact T.map Reply.truth (isAssignable_tells tells sub sup)

end HeaderSource

end StackMaps
