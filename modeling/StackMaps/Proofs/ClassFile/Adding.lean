import StackMaps.Proofs.Answer
import StackMaps.Proofs.ClassFile.Entries
import StackMaps.Proofs.ClassFile.Text

/-! The index that a constant was given stays its index while the pool grows, so that whatever was
added is found again, and adding it a second time changes nothing. -/

namespace StackMaps.Pool

variable {α β : Type} {pool pool' : Pool}

theorem run_bind_eq_ok {x : Adding α} {f : α → Adding β} {b : β} :
    (x >>= f).run pool = (.ok b, pool') ↔
      ∃ a middle, x.run pool = (.ok a, middle) ∧ (f a).run middle = (.ok b, pool') := by
  have steps : (x >>= f).run pool = ExceptT.bindCont f (x.run pool).1 (x.run pool).2 := rfl
  rw [steps]
  obtain ⟨result, middle⟩ := x.run pool
  constructor
  · intro ok
    cases result with
    | ok a => exact ⟨a, middle, rfl, ok⟩
    | error e => cases ok
  · rintro ⟨a, middle, same, ok⟩
    cases same
    exact ok

theorem run_pure_eq_ok {a b : α} :
    (pure a : Adding α).run pool = (.ok b, pool') ↔ a = b ∧ pool = pool' := by
  change (Except.ok a, pool) = _ ↔ _
  simp

/-- What the computation yields has the property in all pools that grow from the one it leaves
behind. In them it yields the same again and adds nothing. -/
def Adds (x : Adding α) (Q : Pool → α → Prop) : Prop :=
  ∀ ⦃pool a pool'⦄, pool.Built → x.run pool = (.ok a, pool') →
    pool'.Built ∧ pool.Grows pool' ∧
      ∀ later, later.Built → pool'.Grows later → x.run later = (.ok a, later) ∧ Q later a

namespace Adds

variable {x : Adding α} {f : α → Adding β} {Q Q' : Pool → α → Prop} {R : α → Pool → β → Prop}

theorem pure (a : α) : Adds (Pure.pure a) fun _ b => b = a := by
  intro pool b pool' built ok
  obtain ⟨rfl, rfl⟩ := run_pure_eq_ok.1 ok
  exact ⟨built, .refl _, fun later _ _ => ⟨rfl, rfl⟩⟩

theorem bind (first : Adds x Q) (next : ∀ a, Adds (f a) (R a)) :
    Adds (x >>= f) fun q b => ∃ a, Q q a ∧ R a q b := by
  intro pool b pool' built ok
  obtain ⟨a, middle, first_ok, next_ok⟩ := run_bind_eq_ok.1 ok
  obtain ⟨built, grows, again⟩ := first built first_ok
  obtain ⟨built', grows', again'⟩ := next a built next_ok
  refine ⟨built', grows.trans grows', fun later later_built later_grows => ?_⟩
  obtain ⟨same, holds⟩ := again later later_built (grows'.trans later_grows)
  obtain ⟨same', holds'⟩ := again' later later_built later_grows
  exact ⟨run_bind_eq_ok.2 ⟨a, later, same, same'⟩, a, holds, holds'⟩

theorem imp (adds : Adds x Q) (weaker : ∀ q a, Q q a → Q' q a) : Adds x Q' := by
  intro pool a pool' built ok
  obtain ⟨built, grows, again⟩ := adds built ok
  exact ⟨built, grows, fun later later_built later_grows =>
    (again later later_built later_grows).imp_right (weaker later a)⟩

end Adds

theorem Built.push {c : Constant} (built : pool.Built)
    (numbered : pool.entries.next + width c ≤ 65536) : (pool.push c).Built := by
  obtain ⟨cs, rfl⟩ := built.grown
  exact ⟨⟨cs ++ [c], (ofList_concat cs c).symm⟩, numbered⟩

theorem run_indexOf (c : Constant) (pool : Pool) : (indexOf c).run pool =
    match pool.index[c.key]? with
    | some i => (.ok i, pool)
    | none =>
      if pool.entries.next + width c > 65535 then (.error (.poolFull pool.entries.next), pool)
      else (.ok (UInt16.ofNat pool.entries.next), pool.push c) := rfl

theorem indexOf_eq_ok {c : Constant} {i : ConstantIndex} (built : pool.Built)
    (ok : (indexOf c).run pool = (.ok i, pool')) :
    pool'.Built ∧ pool.Grows pool' ∧ pool'.index[c.key]? = some i := by
  rw [run_indexOf] at ok
  cases known : pool.index[c.key]? with
  | some j =>
    rw [known] at ok
    cases ok
    exact ⟨built, .refl _, known⟩
  | none =>
    rw [known] at ok
    simp only at ok
    split at ok
    next full => cases ok
    next room =>
      cases ok
      refine ⟨built.push (by omega), .push _ _, ?_⟩
      have fresh : c.key ∉ pool.index := by
        rw [Std.TreeMap.mem_iff_isSome_getElem?, known]
        simp
      rw [push, Std.TreeMap.getElem?_insertIfNew, if_pos ⟨Std.ReflCmp.compare_self, fresh⟩]

theorem indexOf_known {c : Constant} {i : ConstantIndex} (known : pool.index[c.key]? = some i) :
    (indexOf c).run pool = (.ok i, pool) := by
  rw [run_indexOf, known]

theorem adds_indexOf (c : Constant) : Adds (indexOf c) fun q i => q.get? i = some c := by
  intro pool i pool' built ok
  obtain ⟨built, grows, known⟩ := indexOf_eq_ok built ok
  refine ⟨built, grows, fun later later_built later_grows => ?_⟩
  have known := later_grows.index built known
  exact ⟨indexOf_known known, later_built.get?_of_index known⟩

theorem adds_indexOfUtf8 (text : String) :
    Adds (indexOfUtf8 text) fun q i => q.utf8 i = .ok text := by
  refine (adds_indexOf _).imp fun q i found => ?_
  have bytes : q.utf8Bytes i = .ok (ModifiedUtf8.encode text) := by rw [utf8Bytes, found]
  exact bind_eq_ok.2 ⟨_, bytes, by rw [ModifiedUtf8.decode_encode]⟩

theorem adds_indexOfClass (name : String) :
    Adds (indexOfClass name) fun q i => q.className i = .ok name := by
  refine ((adds_indexOfUtf8 name).bind fun i => adds_indexOf _).imp fun q j => ?_
  rintro ⟨i, text, found⟩
  rw [className, found]
  exact text

end StackMaps.Pool
