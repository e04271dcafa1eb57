import StackMaps.Hierarchy.Basic

/-! Computations that ask a fixed class hierarchy have no effect left but failure. `answer` reads
them as plain results, and the equations below push it through the steps of a computation. -/

namespace StackMaps

variable {ε α β : Type}

theorem bind_eq_ok {x : Except ε α} {f : α → Except ε β} {b : β} :
    x >>= f = .ok b ↔ ∃ a, x = .ok a ∧ f a = .ok b := by
  cases x with
  | error e => simp [bind, Except.bind]
  | ok a => simp [bind, Except.bind]

theorem map_eq_ok {x : Except ε α} {f : α → β} {b : β} :
    f <$> x = .ok b ↔ ∃ a, x = .ok a ∧ f a = b := by
  cases x with
  | error e => simp [Functor.map, Except.map]
  | ok a => simp [Functor.map, Except.map]

theorem toOption_eq_some {x : Except ε α} {a : α} : x.toOption = some a ↔ x = .ok a := by
  cases x with
  | error e => simp [Except.toOption]
  | ok a' => simp [Except.toOption]

theorem eq_of_eq_ok_iff {x y : Except ε α} (there : ∃ a, x = .ok a)
    (same : ∀ a, x = .ok a ↔ y = .ok a) : x = y := by
  obtain ⟨a, ok⟩ := there
  rw [ok, (same a).1 ok]

theorem mem_of_mapM_eq_ok {f : α → Except ε β} {xs : List α} {ys : List β}
    (ok : xs.mapM f = .ok ys) {y : β} (member : y ∈ ys) : ∃ x ∈ xs, f x = .ok y := by
  induction xs generalizing ys with
  | nil =>
    cases ok
    cases member
  | cons x xs ih =>
    rw [List.mapM_cons] at ok
    obtain ⟨first, first_ok, ok⟩ := bind_eq_ok.1 ok
    obtain ⟨rest, rest_ok, ok⟩ := bind_eq_ok.1 ok
    cases ok
    obtain rfl | member := List.mem_cons.1 member
    · exact ⟨x, List.mem_cons_self, first_ok⟩
    · obtain ⟨x', there, same⟩ := ih rest_ok member
      exact ⟨x', List.mem_cons_of_mem _ there, same⟩

theorem exists_of_mapM_eq_ok {f : α → Except ε β} {xs : List α} {ys : List β}
    (ok : xs.mapM f = .ok ys) {x : α} (member : x ∈ xs) : ∃ y ∈ ys, f x = .ok y := by
  induction xs generalizing ys with
  | nil => cases member
  | cons x' xs ih =>
    rw [List.mapM_cons] at ok
    obtain ⟨first, first_ok, ok⟩ := bind_eq_ok.1 ok
    obtain ⟨rest, rest_ok, ok⟩ := bind_eq_ok.1 ok
    cases ok
    obtain rfl | member := List.mem_cons.1 member
    · exact ⟨first, List.mem_cons_self, first_ok⟩
    · obtain ⟨y, there, same⟩ := ih rest_ok member
      exact ⟨y, List.mem_cons_of_mem _ there, same⟩

/-- The result of a computation without other effects. -/
def answer (x : ExceptT ε Id α) : Except ε α := x

@[simp] theorem answer_pure (a : α) : answer (pure a : ExceptT ε Id α) = .ok a := rfl

@[simp] theorem answer_throw (e : ε) : answer (throw e : ExceptT ε Id α) = .error e := rfl

@[simp] theorem answer_bind (x : ExceptT ε Id α) (f : α → ExceptT ε Id β) :
    answer (x >>= f) = answer x >>= fun a => answer (f a) := by
  match x with
  | .ok _ => rfl
  | .error _ => rfl

theorem answer_foldlM (f : β → α → ExceptT ε Id β) (b : β) (as : List α) :
    answer (as.foldlM f b) = as.foldlM (fun b a => answer (f b a)) b := by
  induction as generalizing b with
  | nil => rfl
  | cons a as ih => simp only [List.foldlM_cons, answer_bind, ih]

@[simp] theorem answer_lift_bind (x : Id α) (f : α → ExceptT ε Id β) :
    answer (liftM x >>= f) = answer (f x) := rfl

@[simp] theorem answer_ofExcept (x : Except Error α) : answer (ofExcept x) = x := rfl

theorem answer_bind_eq_ok {x : ExceptT ε Id α} {f : α → ExceptT ε Id β} {b : β} :
    answer (x >>= f) = .ok b ↔ ∃ a, answer x = .ok a ∧ answer (f a) = .ok b := by
  rw [answer_bind, bind_eq_ok]

end StackMaps
