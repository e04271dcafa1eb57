import Mathlib.Data.List.Perm.Subperm
import Mathlib.Logic.Relation
import StackMaps.Proofs.Answer

/-! The superclasses of a class, found by walking up until a class repeats or has no superclass, are
the classes that superclass links lead to. Nothing is assumed of the links: they may form a circle,
or lead to a class that is not known, which is the only way for the walk to fail. -/

namespace StackMaps.Hierarchy

variable (H : Hierarchy)

def IsKnown (n : BinaryName) : Prop := ∃ h, H.find n = some h

def Extends (c d : BinaryName) : Prop := ∃ h, H.find c = some h ∧ h.superclass = some d

def Inherits : BinaryName → BinaryName → Prop := Relation.ReflTransGen H.Extends

def isInterface (n : BinaryName) : Bool := H.source.isInterface n

variable {H}

theorem Extends.isKnown {c d : BinaryName} (link : H.Extends c d) : H.IsKnown c := by
  obtain ⟨h, found, _⟩ := link
  exact ⟨h, found⟩

theorem Inherits.refl (n : BinaryName) : H.Inherits n n := Relation.ReflTransGen.refl

theorem Inherits.trans {a b c : BinaryName} (ab : H.Inherits a b) (bc : H.Inherits b c) :
    H.Inherits a c := Relation.ReflTransGen.trans ab bc

theorem Extends.inherits {a b c : BinaryName} (ab : H.Extends a b) (bc : H.Inherits b c) :
    H.Inherits a c := Relation.ReflTransGen.head ab bc

theorem Inherits.eq_or_extends {a c : BinaryName} (ac : H.Inherits a c) :
    a = c ∨ ∃ b, H.Extends a b ∧ H.Inherits b c :=
  (Relation.ReflTransGen.cases_head ac).imp_left id

theorem Extends.unique {a b c : BinaryName} (ab : H.Extends a b) (ac : H.Extends a c) : b = c := by
  obtain ⟨h, found, up⟩ := ab
  obtain ⟨h', found', up'⟩ := ac
  rw [found] at found'
  cases found'
  rw [up] at up'
  exact Option.some.inj up'

theorem answer_require (n : BinaryName) :
    answer (H.source.require n) =
      match H.find n with
      | some h => .ok h
      | none => .error n := by
  simp only [HeaderSource.require, source]
  cases H.find n <;> rfl

theorem answer_require_eq_ok {n : BinaryName} {h : ClassHeader} :
    answer (H.source.require n) = .ok h ↔ H.find n = some h := by
  rw [answer_require]
  cases H.find n <;> simp

theorem length_le_bound {names : List BinaryName} (nodup : names.Nodup)
    (known : ∀ n ∈ names, H.IsKnown n) : names.length ≤ H.bound := by
  obtain ⟨all, short, complete⟩ := H.finite
  have subset : names ⊆ all := fun n member => by
    obtain ⟨h, found⟩ := known n member
    exact complete n h found
  exact Nat.le_trans (nodup.subperm subset).length_le short

theorem chainFrom_nil {fuel : Nat} {seen : List BinaryName} :
    answer (H.source.chainFrom fuel seen none) = .ok [] := by
  cases fuel <;> rfl

theorem chainFrom_zero {seen : List BinaryName} {next : Option BinaryName} :
    answer (H.source.chainFrom 0 seen next) = .ok [] := by
  cases next <;> rfl

theorem chainFrom_seen {fuel : Nat} {seen : List BinaryName} {n : BinaryName} (again : n ∈ seen) :
    answer (H.source.chainFrom fuel seen (some n)) = .ok [] := by
  cases fuel with
  | zero => rfl
  | succ fuel => rw [HeaderSource.chainFrom, if_pos again]; rfl

theorem chainFrom_new {fuel : Nat} {seen : List BinaryName} {n : BinaryName} (new : n ∉ seen) :
    answer (H.source.chainFrom (fuel + 1) seen (some n)) =
      match H.find n with
      | none => .error n
      | some h =>
        List.cons n <$> answer (H.source.chainFrom fuel (n :: seen) h.superclass) := by
  rw [HeaderSource.chainFrom, if_neg new, answer_bind, answer_require]
  cases H.find n with
  | none => rfl
  | some h => simp only [answer_bind, answer_pure]; rfl

theorem chainFrom_cases {fuel : Nat} {seen : List BinaryName} {next : Option BinaryName}
    {chain : List BinaryName}
    (ok : answer (H.source.chainFrom (fuel + 1) seen next) = .ok chain) :
    chain = [] ∧ (∀ n, next = some n → n ∈ seen) ∨
      ∃ n h rest, next = some n ∧ n ∉ seen ∧ H.find n = some h ∧ chain = n :: rest ∧
        answer (H.source.chainFrom fuel (n :: seen) h.superclass) = .ok rest := by
  cases next with
  | none => rw [chainFrom_nil] at ok; cases ok; exact .inl ⟨rfl, by simp⟩
  | some n =>
    by_cases again : n ∈ seen
    · rw [chainFrom_seen again] at ok; cases ok; exact .inl ⟨rfl, by simp [again]⟩
    · rw [chainFrom_new again] at ok
      cases found : H.find n with
      | none => rw [found] at ok; cases ok
      | some h =>
        simp only [found] at ok
        obtain ⟨rest, further, rfl⟩ := map_eq_ok.1 ok
        exact .inr ⟨n, h, rest, rfl, again, found, rfl, further⟩

theorem inherits_of_mem_chainFrom {fuel : Nat} {seen : List BinaryName}
    {next : Option BinaryName} {chain : List BinaryName}
    (ok : answer (H.source.chainFrom fuel seen next) = .ok chain) :
    ∀ m ∈ chain, H.IsKnown m ∧ m ∉ seen ∧ ∃ n, next = some n ∧ H.Inherits n m := by
  induction fuel generalizing seen next chain with
  | zero => rw [chainFrom_zero] at ok; cases ok; simp
  | succ fuel ih =>
    intro m member
    obtain ⟨rfl, _⟩ | ⟨n, h, rest, rfl, new, found, rfl, further⟩ := chainFrom_cases ok
    · simp at member
    · obtain rfl | member := List.mem_cons.1 member
      · exact ⟨⟨h, found⟩, new, m, rfl, .refl m⟩
      · obtain ⟨known, unseen, d, link, up⟩ := ih further m member
        exact ⟨known, fun h => unseen (List.mem_cons_of_mem _ h), n, rfl,
          Extends.inherits ⟨h, found, link⟩ up⟩

theorem chainFrom_nodup {fuel : Nat} {seen : List BinaryName} {next : Option BinaryName}
    {chain : List BinaryName} (ok : answer (H.source.chainFrom fuel seen next) = .ok chain) :
    chain.Nodup := by
  induction fuel generalizing seen next chain with
  | zero => rw [chainFrom_zero] at ok; cases ok; exact List.nodup_nil
  | succ fuel ih =>
    obtain ⟨rfl, _⟩ | ⟨n, h, rest, rfl, _, _, rfl, further⟩ := chainFrom_cases ok
    · exact List.nodup_nil
    · refine List.nodup_cons.2 ⟨fun member => ?_, ih further⟩
      exact (inherits_of_mem_chainFrom further n member).2.1 List.mem_cons_self

theorem chainFrom_pairwise {fuel : Nat} {seen : List BinaryName} {next : Option BinaryName}
    {chain : List BinaryName} (ok : answer (H.source.chainFrom fuel seen next) = .ok chain) :
    chain.Pairwise H.Inherits := by
  induction fuel generalizing seen next chain with
  | zero => rw [chainFrom_zero] at ok; cases ok; exact .nil
  | succ fuel ih =>
    obtain ⟨rfl, _⟩ | ⟨n, h, rest, rfl, _, found, rfl, further⟩ := chainFrom_cases ok
    · exact .nil
    · refine List.pairwise_cons.2 ⟨fun m member => ?_, ih further⟩
      obtain ⟨_, _, d, link, up⟩ := inherits_of_mem_chainFrom further m member
      exact Extends.inherits ⟨h, found, link⟩ up

/-- A walk misses no class. The fuel is one more than the known classes not seen yet, so it does not
run out before a class repeats. -/
theorem chainFrom_closed {fuel : Nat} {seen : List BinaryName} {next : Option BinaryName}
    {chain : List BinaryName} (ok : answer (H.source.chainFrom fuel seen next) = .ok chain)
    (enough : seen.length + fuel = H.bound + 1) (nodup : seen.Nodup)
    (known : ∀ n ∈ seen, H.IsKnown n) :
    (∀ n, next = some n → n ∈ chain ∨ n ∈ seen) ∧
      ∀ c ∈ chain, ∀ d, H.Extends c d → d ∈ chain ∨ d ∈ seen := by
  induction fuel generalizing seen next chain with
  | zero =>
    have := length_le_bound nodup known
    omega
  | succ fuel ih =>
    obtain ⟨rfl, again⟩ | ⟨n, h, rest, rfl, new, found, rfl, further⟩ := chainFrom_cases ok
    · exact ⟨fun n same => .inr (again n same), by simp⟩
    · obtain ⟨first, above⟩ := ih further (by simp only [List.length_cons]; omega)
        (List.nodup_cons.2 ⟨new, nodup⟩)
        (fun m member => by
          obtain rfl | member := List.mem_cons.1 member
          · exact ⟨h, found⟩
          · exact known m member)
      have weaken : ∀ d, d ∈ rest ∨ d ∈ n :: seen → d ∈ n :: rest ∨ d ∈ seen := by
        intro d
        simp only [List.mem_cons]
        rintro (h | h | h) <;> simp [h]
      refine ⟨by simp, fun c member d link => ?_⟩
      obtain rfl | member := List.mem_cons.1 member
      · obtain ⟨h', found', link⟩ := link
        rw [found] at found'
        cases found'
        exact weaken d (first d link)
      · exact weaken d (above c member d link)

theorem chainFrom_ok {fuel : Nat} {seen : List BinaryName} {next : Option BinaryName}
    (known : ∀ n m, next = some n → H.Inherits n m → H.IsKnown m) :
    ∃ chain, answer (H.source.chainFrom fuel seen next) = .ok chain := by
  induction fuel generalizing seen next with
  | zero => exact ⟨[], chainFrom_zero⟩
  | succ fuel ih =>
    cases next with
    | none => exact ⟨[], chainFrom_nil⟩
    | some n =>
      by_cases again : n ∈ seen
      · exact ⟨[], chainFrom_seen again⟩
      · obtain ⟨h, found⟩ := known n n rfl (.refl n)
        obtain ⟨rest, ok⟩ := @ih (n :: seen) h.superclass
          fun d m link up => known n m rfl (Extends.inherits ⟨h, found, link⟩ up)
        exact ⟨n :: rest, by simp only [chainFrom_new again, found, ok]; rfl⟩

theorem answer_superclasses (n : BinaryName) :
    answer (H.source.superclasses n) =
      answer (H.source.chainFrom (H.bound + 1) [] (some n)) := rfl

theorem mem_superclasses {n m : BinaryName} {chain : List BinaryName}
    (ok : answer (H.source.superclasses n) = .ok chain) : m ∈ chain ↔ H.Inherits n m := by
  rw [answer_superclasses] at ok
  constructor
  · intro member
    obtain ⟨_, _, n', same, up⟩ := inherits_of_mem_chainFrom ok m member
    cases same
    exact up
  · intro up
    obtain ⟨first, above⟩ := chainFrom_closed ok (by simp) List.nodup_nil (by simp)
    induction up with
    | refl => simpa using first n rfl
    | tail _ link ih => simpa using above _ ih _ link

theorem superclasses_eq_cons {n : BinaryName} {chain : List BinaryName}
    (ok : answer (H.source.superclasses n) = .ok chain) : ∃ rest, chain = n :: rest := by
  obtain ⟨_, seen⟩ | ⟨m, h, rest, same, _, _, rfl, _⟩ := chainFrom_cases ok
  · cases seen n rfl
  · cases same
    exact ⟨rest, rfl⟩

theorem isKnown_of_superclasses {n m : BinaryName} {chain : List BinaryName}
    (ok : answer (H.source.superclasses n) = .ok chain) (up : H.Inherits n m) : H.IsKnown m :=
  (inherits_of_mem_chainFrom ok m ((mem_superclasses ok).2 up)).1

theorem superclasses_nodup {n : BinaryName} {chain : List BinaryName}
    (ok : answer (H.source.superclasses n) = .ok chain) : chain.Nodup := chainFrom_nodup ok

theorem superclasses_length_le {n : BinaryName} {chain : List BinaryName}
    (ok : answer (H.source.superclasses n) = .ok chain) : chain.length ≤ H.bound :=
  length_le_bound (superclasses_nodup ok) fun m member =>
    (inherits_of_mem_chainFrom ok m member).1

theorem superclasses_ok {n : BinaryName} (known : ∀ m, H.Inherits n m → H.IsKnown m) :
    ∃ chain, answer (H.source.superclasses n) = .ok chain :=
  chainFrom_ok fun n' m same up => by
    cases same
    exact known m up

/-- `d` is a superclass of `c`, or the class that is taken to be above all. -/
def Under (H : Hierarchy) (c d : BinaryName) : Prop := d = .object ∨ H.Inherits c d

theorem Under.refl (c : BinaryName) : H.Under c c := .inr (.refl c)

theorem under_of_find {H' : Hierarchy} (same : H'.find = H.find) : H'.Under = H.Under := by
  unfold Under Inherits Extends
  rw [same]

def IsRooted (H : Hierarchy) : Prop := ∀ h, H.find .object = some h → h.superclass = none

theorem IsRooted.eq_of_inherits (rooted : H.IsRooted) {d : BinaryName}
    (up : H.Inherits .object d) : d = .object := by
  obtain same | ⟨_, ⟨h, found, link⟩, _⟩ := up.eq_or_extends
  · exact same.symm
  · rw [rooted h found] at link
    cases link

theorem IsRooted.eq_of_under (rooted : H.IsRooted) {d : BinaryName} (up : H.Under .object d) :
    d = .object := up.elim id rooted.eq_of_inherits

theorem Under.trans (rooted : H.IsRooted) {a b c : BinaryName} (ab : H.Under a b)
    (bc : H.Under b c) : H.Under a c := by
  obtain rfl | ab := ab
  · exact .inl (rooted.eq_of_under bc)
  · exact bc.imp_right ab.trans

theorem answer_commonSuperclass_self (a : BinaryName) :
    answer (H.source.commonSuperclass a a) = .ok a := by
  rw [HeaderSource.commonSuperclass, if_pos rfl]
  rfl

theorem answer_commonSuperclass {a b : BinaryName} (different : a ≠ b) {ha hb : ClassHeader}
    (founda : H.find a = some ha) (foundb : H.find b = some hb) :
    answer (H.source.commonSuperclass a b) =
      if ha.isInterface || hb.isInterface then .ok .object
      else do
        let above ← answer (H.source.superclasses a)
        let candidates ← answer (H.source.superclasses b)
        return (candidates.find? (above.contains ·)).getD .object := by
  simp only [HeaderSource.commonSuperclass, if_neg different, answer_bind, answer_require, founda,
    foundb]
  change answer (if ha.isInterface || hb.isInterface then _ else _) = _
  split
  · rfl
  · simp only [answer_bind, answer_pure]
    rfl

theorem isInterface_eq {n : BinaryName} {h : ClassHeader} (found : H.find n = some h) :
    H.isInterface n = h.isInterface := by
  simp only [isInterface, HeaderSource.isInterface, source, found]
  rfl

theorem commonSuperclass_of_inherits {a b : BinaryName} (classa : H.isInterface a = false)
    (classb : H.isInterface b = false) (up : H.Inherits a b) {above candidates : List BinaryName}
    (chaina : answer (H.source.superclasses a) = .ok above)
    (chainb : answer (H.source.superclasses b) = .ok candidates) :
    answer (H.source.commonSuperclass a b) = .ok b := by
  by_cases different : a = b
  · rw [different, answer_commonSuperclass_self]
  · obtain ⟨ha, founda⟩ := isKnown_of_superclasses chaina (.refl a)
    obtain ⟨hb, foundb⟩ := isKnown_of_superclasses chainb (.refl b)
    obtain ⟨rest, rfl⟩ := superclasses_eq_cons chainb
    rw [isInterface_eq founda] at classa
    rw [isInterface_eq foundb] at classb
    have member : above.contains b = true := List.contains_iff_mem.2 ((mem_superclasses chaina).2 up)
    rw [answer_commonSuperclass different founda foundb, classa, classb, chaina, chainb]
    simp only [Bool.or_self, Bool.false_eq_true, ↓reduceIte]
    change Except.ok (((b :: rest).find? (above.contains ·)).getD .object) = _
    rw [List.find?_cons_of_pos member]
    rfl

/-- What the common superclass of two classes can be. -/
inductive Common (H : Hierarchy) (a b c : BinaryName) : Prop
  | same (equal : a = b) (result : c = a)
  | interface (different : a ≠ b) (knowna : H.IsKnown a) (knownb : H.IsKnown b)
      (some_interface : H.isInterface a = true ∨ H.isInterface b = true)
      (result : c = .object)
  | nearest (different : a ≠ b) (classa : H.isInterface a = false)
      (classb : H.isInterface b = false) (above candidates : List BinaryName)
      (chaina : answer (H.source.superclasses a) = .ok above)
      (chainb : answer (H.source.superclasses b) = .ok candidates)
      (result : c = (candidates.find? (above.contains ·)).getD .object)

theorem common_of_ok {a b c : BinaryName} (ok : answer (H.source.commonSuperclass a b) = .ok c) :
    H.Common a b c := by
  by_cases different : a = b
  · subst different
    rw [answer_commonSuperclass_self] at ok
    cases ok
    exact .same rfl rfl
  · have required := ok
    simp only [HeaderSource.commonSuperclass, if_neg different, answer_bind, bind_eq_ok] at required
    obtain ⟨ha, founda, hb, foundb, _⟩ := required
    rw [answer_require_eq_ok] at founda foundb
    rw [answer_commonSuperclass different founda foundb] at ok
    split at ok
    next some_interface =>
      cases ok
      rw [Bool.or_eq_true, ← isInterface_eq founda, ← isInterface_eq foundb] at some_interface
      exact .interface different ⟨ha, founda⟩ ⟨hb, foundb⟩ some_interface rfl
    next classes =>
      rw [Bool.not_eq_true, Bool.or_eq_false_iff, ← isInterface_eq founda,
        ← isInterface_eq foundb] at classes
      obtain ⟨above, chaina, rest⟩ := bind_eq_ok.1 ok
      obtain ⟨candidates, chainb, result⟩ := bind_eq_ok.1 rest
      cases result
      exact .nearest different classes.1 classes.2 above candidates chaina chainb rfl

theorem Common.under {a b c : BinaryName} (common : H.Common a b c) :
    H.Under a c ∧ H.Under b c := by
  cases common with
  | same equal result =>
    subst equal result
    exact ⟨.refl _, .refl _⟩
  | interface _ _ _ _ result => exact ⟨.inl result, .inl result⟩
  | nearest _ _ _ above candidates chaina chainb result =>
    cases found : candidates.find? (above.contains ·) with
    | none =>
      rw [found] at result
      exact ⟨.inl result, .inl result⟩
    | some d =>
      rw [found, Option.getD_some] at result
      subst result
      have ina := List.find?_some found
      have inb := List.mem_of_find?_eq_some found
      simp only [List.contains_iff_mem] at ina
      exact ⟨.inr ((mem_superclasses chaina).1 ina), .inr ((mem_superclasses chainb).1 inb)⟩

end StackMaps.Hierarchy
