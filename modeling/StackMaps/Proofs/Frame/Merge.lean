import StackMaps.Proofs.Descriptor
import StackMaps.Proofs.Frame.Order
import StackMaps.Proofs.Hierarchy.Superclass

/-! The merge of two types is above both in the order of frames, whatever the class hierarchy; where
common superclasses are least upper bounds of classes, it is the least type above both. -/

namespace StackMaps

variable {H : Hierarchy}

/-- Common superclasses of classes in `K` are in `K` and above them. -/
structure Hierarchy.IsCovering (H : Hierarchy) (K : BinaryName → Prop)
    (R : BinaryName → BinaryName → Prop) : Prop where
  object_mem : K .object
  under_object : ∀ a, K a → R a .object
  upper : ∀ a b c, K a → K b → answer (H.source.commonSuperclass a b) = .ok c →
    K c ∧ R a c ∧ R b c

structure Hierarchy.IsUpper (H : Hierarchy) (K : BinaryName → Prop)
    (R : BinaryName → BinaryName → Prop) : Prop extends H.IsCovering K R where
  order : IsNameOrder R

/-- Common superclasses of classes in `K` exist and are least. -/
structure Hierarchy.IsLeast (H : Hierarchy) (K : BinaryName → Prop)
    (R : BinaryName → BinaryName → Prop) : Prop extends H.IsUpper K R where
  exists_common : ∀ a b, K a → K b → ∃ c, answer (H.source.commonSuperclass a b) = .ok c
  least : ∀ a b c d, K a → K b → answer (H.source.commonSuperclass a b) = .ok c →
    R a d → R b d → R c d

/-- In any hierarchy common superclasses are above the classes; that this is an order takes a root. -/
theorem Hierarchy.isCovering (H : Hierarchy) : H.IsCovering (fun _ => True) H.Under where
  object_mem := trivial
  under_object _ _ := .inl rfl
  upper _ _ _ _ _ ok := ⟨trivial, (common_of_ok ok).under⟩

theorem Hierarchy.IsRooted.isUpper (rooted : H.IsRooted) :
    H.IsUpper (fun _ => True) H.Under where
  toIsCovering := H.isCovering
  order := ⟨.refl, fun _ _ _ => .trans rooted, fun _ => rooted.eq_of_under⟩

def ElementType.Names (K : BinaryName → Prop) : ElementType → Prop
  | .object n => K n
  | .base _ => True

def RefType.Names (K : BinaryName → Prop) : RefType → Prop
  | .object n => K n
  | .array _ e => e.Names K

def RefType.Within (K : BinaryName → Prop) (D : Nat) : RefType → Prop
  | .object n => K n
  | .array i e => e.Names K ∧ i < D

variable {K : BinaryName → Prop} {R : BinaryName → BinaryName → Prop} {D : Nat}

theorem RefType.names_true (r : RefType) : r.Names fun _ => True := by
  obtain n | ⟨i, b | n⟩ := r <;> trivial

theorem RefType.within_iff {r : RefType} : r.Within K D ↔ r.Names K ∧ r.dimensions ≤ D := by
  cases r with
  | object n => exact ⟨fun known => ⟨known, Nat.zero_le _⟩, fun both => both.1⟩
  | array i e => rfl

namespace RefType

theorem answer_mergeArrays_zero (a b : ElementType) :
    answer (mergeArrays H.source a b 0 0) =
      match a, b with
      | .object a, .object b => (.array 0 <| .object ·) <$> answer (H.source.commonSuperclass a b)
      | a, b => .ok (if a = b then .array 0 a else .object .object) := by
  unfold mergeArrays
  cases a <;> cases b
  case object.object => simp only [answer_bind, answer_pure]; rfl
  all_goals rfl

theorem answer_mergeArrays_succ (a b : ElementType) (i j : Nat) :
    answer (mergeArrays H.source a b (i + 1) (j + 1)) =
      (.arrayOf <| .ref ·) <$> answer (mergeArrays H.source a b i j) := by
  rw [mergeArrays]
  simp only [answer_bind, answer_pure]
  rfl

theorem answer_mergeArrays_left (a b : ElementType) (i : Nat) :
    answer (mergeArrays H.source a b (i + 1) 0) =
      match b with
      | .object _ => .ok (.array 0 (.object .object))
      | .base _ => .ok (.object .object) := by
  cases b <;> rfl

theorem answer_mergeArrays_right (a b : ElementType) (j : Nat) :
    answer (mergeArrays H.source a b 0 (j + 1)) =
      match a with
      | .object _ => .ok (.array 0 (.object .object))
      | .base _ => .ok (.object .object) := by
  cases a <;> rfl

theorem answer_merge (a b : RefType) :
    answer (merge H.source a b) =
      if a = b then .ok a
      else
        match a, b with
        | .object a, .object b => .object <$> answer (H.source.commonSuperclass a b)
        | .array i a, .array j b => answer (mergeArrays H.source a b i j)
        | _, _ => .ok (.object .object) := by
  unfold merge
  split
  · rfl
  · cases a <;> cases b
    case object.object => simp only [answer_bind, answer_pure]; rfl
    all_goals rfl

/-- Types that have nothing but `java/lang/Object` above both: a class and an array, or arrays whose
elements are not the same and not both references. -/
inductive Apart : RefType → RefType → Prop
  | classArray (n : BinaryName) (i : Nat) (e : ElementType) : Apart (.object n) (.array i e)
  | arrayClass (i : Nat) (e : ElementType) (n : BinaryName) : Apart (.array i e) (.object n)
  | baseElement (b : BaseType) (t : FieldType) (differ : .base b ≠ t) : Apart (arrayOf (.base b)) (arrayOf t)
  | elementBase (t : FieldType) (b : BaseType) (differ : t ≠ .base b) : Apart (arrayOf t) (arrayOf (.base b))

/-- The merge of two types: the common superclass of classes, the arrays of what their components merge
to, and otherwise `java/lang/Object`. -/
inductive Merges (H : Hierarchy) : RefType → RefType → RefType → Prop
  | same (a : RefType) : Merges H a a a
  | classes {a b c : BinaryName} (common : answer (H.source.commonSuperclass a b) = .ok c) :
    Merges H (.object a) (.object b) (.object c)
  | components (a b r : RefType) (merges : Merges H a b r) :
    Merges H (arrayOf (.ref a)) (arrayOf (.ref b)) (arrayOf (.ref r))
  | apart {a b : RefType} (apart : Apart a b) : Merges H a b (.object .object)

theorem merges_of_mergeArrays {a b : ElementType} {i j : Nat} {r : RefType}
    (ok : answer (mergeArrays H.source a b i j) = .ok r) : Merges H (array i a) (array j b) r := by
  induction i generalizing j r with
  | zero =>
    cases j with
    | zero =>
      rw [answer_mergeArrays_zero] at ok
      cases a with
      | object a =>
        cases b with
        | object b =>
          obtain ⟨c, common, rfl⟩ := map_eq_ok.1 ok
          exact .components (.object a) (.object b) (.object c) (.classes common)
        | base b =>
          cases ok
          exact .apart (.elementBase (.ref (.object a)) b nofun)
      | base a =>
        cases ok
        split
        next same =>
          subst same
          exact .same _
        next differ =>
          cases b with
          | object b => exact .apart (.baseElement a (.ref (.object b)) nofun)
          | base b => exact .apart (.baseElement a (.base b) (by simpa using differ))
    | succ j =>
      rw [answer_mergeArrays_right] at ok
      cases a with
      | object a =>
        cases ok
        exact .components (.object a) (.array j b) (.object .object) (.apart (.classArray a j b))
      | base a =>
        cases ok
        exact .apart (.baseElement a (.ref (.array j b)) nofun)
  | succ i ih =>
    cases j with
    | zero =>
      rw [answer_mergeArrays_left] at ok
      cases b with
      | object b =>
        cases ok
        exact .components (.array i a) (.object b) (.object .object) (.apart (.arrayClass i a b))
      | base b =>
        cases ok
        exact .apart (.elementBase (.ref (.array i a)) b nofun)
    | succ j =>
      rw [answer_mergeArrays_succ] at ok
      obtain ⟨r, inner, rfl⟩ := map_eq_ok.1 ok
      exact .components (.array i a) (.array j b) r (ih inner)

theorem merges_of_ok {a b r : RefType} (ok : answer (merge H.source a b) = .ok r) : Merges H a b r := by
  rw [answer_merge] at ok
  split at ok
  next same =>
    cases ok
    subst same
    exact .same a
  next =>
    cases a with
    | object a =>
      cases b with
      | object b =>
        obtain ⟨c, common, rfl⟩ := map_eq_ok.1 ok
        exact .classes common
      | array j b =>
        cases ok
        exact .apart (.classArray a j b)
    | array i a =>
      cases b with
      | object b =>
        cases ok
        exact .apart (.arrayClass i a b)
      | array j b => exact merges_of_mergeArrays ok

theorem exists_mergeArrays
    (common : ∀ a b, K a → K b → ∃ c, answer (H.source.commonSuperclass a b) = .ok c)
    {a b : ElementType} {i j : Nat} (ina : a.Names K) (inb : b.Names K) :
    ∃ r, answer (mergeArrays H.source a b i j) = .ok r := by
  induction i generalizing j with
  | zero =>
    cases j with
    | zero =>
      rw [answer_mergeArrays_zero]
      cases a with
      | object a =>
        cases b with
        | object b =>
          obtain ⟨c, ok⟩ := common a b ina inb
          exact ⟨_, map_eq_ok.2 ⟨c, ok, rfl⟩⟩
        | base b => exact ⟨_, rfl⟩
      | base a => exact ⟨_, rfl⟩
    | succ j => cases a <;> exact ⟨_, rfl⟩
  | succ i ih =>
    cases j with
    | zero => cases b <;> exact ⟨_, rfl⟩
    | succ j =>
      obtain ⟨r, inner⟩ := ih (j := j)
      exact ⟨_, by rw [answer_mergeArrays_succ]; exact map_eq_ok.2 ⟨r, inner, rfl⟩⟩

theorem exists_merge (common : ∀ a b, K a → K b → ∃ c, answer (H.source.commonSuperclass a b) = .ok c)
    {a b : RefType} (ina : a.Names K) (inb : b.Names K) : ∃ r, answer (merge H.source a b) = .ok r := by
  rw [answer_merge]
  split
  next => exact ⟨_, rfl⟩
  next =>
    cases a with
    | object a =>
      cases b with
      | object b =>
        obtain ⟨c, ok⟩ := common a b ina inb
        exact ⟨_, map_eq_ok.2 ⟨c, ok, rfl⟩⟩
      | array j b => exact ⟨_, rfl⟩
    | array i a =>
      cases b with
      | object b => exact ⟨_, rfl⟩
      | array j b => exact exists_mergeArrays common ina inb

theorem element_refl (upper : H.IsCovering K R) {a : ElementType} (ina : a.Names K) : a.Below R a := by
  cases a with
  | base b => rfl
  | object n => exact (upper.upper n n n ina ina (Hierarchy.answer_commonSuperclass_self n)).2.1

theorem below_refl (upper : H.IsCovering K R) {a : RefType} (ina : a.Within K D) : a.Below R a := by
  cases a with
  | object n => exact (upper.upper n n n ina ina (Hierarchy.answer_commonSuperclass_self n)).2.1
  | array i e => exact .inl ⟨rfl, element_refl upper ina.1⟩

theorem below_object (upper : H.IsCovering K R) {a : RefType} (ina : a.Within K D) :
    a.Below R (.object .object) := by
  cases a with
  | object n => exact upper.under_object n ina
  | array i e => rfl

theorem below_arrayOf {a b : RefType} (below : a.Below R b) :
    (arrayOf (.ref a)).Below R (arrayOf (.ref b)) := by
  cases a with
  | object a =>
    cases b with
    | object b => exact .inl ⟨rfl, below⟩
    | array j b => exact below.elim
  | array i a =>
    cases b with
    | object b => cases (show b = .object from below); exact .inr ⟨Nat.succ_pos i, rfl⟩
    | array j b =>
      exact below.imp (fun ⟨same, below⟩ => ⟨congrArg (· + 1) same, below⟩)
        (fun ⟨deeper, top⟩ => ⟨Nat.succ_lt_succ deeper, top⟩)

theorem within_arrayOf {r : RefType} :
    (arrayOf (.ref r)).Within K D ↔ 0 < D ∧ r.Within K (D - 1) := by
  cases r with
  | object n => simp only [arrayOf, Within, ElementType.Names, and_comm]
  | array i e =>
    simp only [arrayOf, Within]
    constructor
    · rintro ⟨names, less⟩
      exact ⟨by omega, names, by omega⟩
    · rintro ⟨some, names, less⟩
      exact ⟨names, by omega⟩

theorem Merges.upper (upper : H.IsCovering K R) {a b r : RefType} (merges : Merges H a b r)
    (ina : a.Within K D) (inb : b.Within K D) : r.Within K D ∧ a.Below R r ∧ b.Below R r := by
  induction merges generalizing D with
  | same a => exact ⟨ina, below_refl upper ina, below_refl upper ina⟩
  | classes common => exact upper.upper _ _ _ ina inb common
  | components a b r _ ih =>
    obtain ⟨some, ina⟩ := within_arrayOf.1 ina
    obtain ⟨inr, ar, br⟩ := ih ina (within_arrayOf.1 inb).2
    exact ⟨within_arrayOf.2 ⟨some, inr⟩, below_arrayOf ar, below_arrayOf br⟩
  | apart => exact ⟨upper.object_mem, below_object upper ina, below_object upper inb⟩

theorem merge_upper (upper : H.IsCovering K R) {a b r : RefType} (ina : a.Within K D)
    (inb : b.Within K D) (ok : answer (merge H.source a b) = .ok r) :
    r.Within K D ∧ a.Below R r ∧ b.Below R r :=
  (merges_of_ok ok).upper upper ina inb

theorem arrayOf_injective : Function.Injective arrayOf := fun s t same => by
  rw [← Option.some.injEq, ← component?_arrayOf s, same, component?_arrayOf]

theorem Below.of_arrayOf {t : FieldType} {d : RefType} (below : (arrayOf t).Below R d) :
    d = .object .object ∨ ∃ u, d = arrayOf u ∧ t.Below R u := by
  cases d with
  | object d =>
    obtain b | n | ⟨i, e⟩ := t <;> exact .inl (congrArg _ (show d = .object from below))
  | array j e =>
    obtain ⟨u, component⟩ := Option.isSome_iff_exists.1 (isSome_component? (.array j e))
    obtain ⟨s, elements, below⟩ := below.component component
    cases (component?_arrayOf t).symm.trans elements
    exact .inr ⟨u, component?_eq_some.1 component, below⟩

theorem arrayOf_below_object (t : FieldType) : (arrayOf t).Below R (.object .object) := by
  obtain b | n | ⟨i, e⟩ := t <;> rfl

theorem names_arrayOf {r : RefType} : (arrayOf (.ref r)).Names K ↔ r.Names K := by
  cases r <;> rfl

theorem Apart.eq_object {a b d : RefType} (apart : Apart a b) (ad : a.Below R d) (bd : b.Below R d) :
    d = .object .object := by
  -- a base type is below itself alone
  have elements {b : BaseType} {t : FieldType} (differ : .base b ≠ t)
      (first : (arrayOf (.base b)).Below R d) (second : (arrayOf t).Below R d) : d = .object .object := by
    obtain top | ⟨u, rfl, bu⟩ := first.of_arrayOf
    · exact top
    · obtain top | ⟨_, same, tu⟩ := second.of_arrayOf
      · exact top
      · cases arrayOf_injective same
        cases bu
        cases tu
        exact absurd rfl differ
  cases apart with
  | classArray =>
    cases d with
    | object d => exact congrArg _ (show d = .object from bd)
    | array k d => exact ad.elim
  | arrayClass =>
    cases d with
    | object d => exact congrArg _ (show d = .object from ad)
    | array k d => exact bd.elim
  | baseElement b t differ => exact elements differ ad bd
  | elementBase t b differ => exact elements differ.symm bd ad

theorem Merges.least (least : H.IsLeast K R) {a b r d : RefType} (merges : Merges H a b r) (ina : a.Names K)
    (inb : b.Names K) (ad : a.Below R d) (bd : b.Below R d) : r.Below R d := by
  induction merges generalizing d with
  | same => exact ad
  | classes common =>
    cases d with
    | object d => exact least.least _ _ _ d ina inb common ad bd
    | array k d => exact ad.elim
  | components a b r _ ih =>
    obtain rfl | ⟨u, rfl, au⟩ := ad.of_arrayOf
    · exact arrayOf_below_object _
    · obtain top | ⟨_, same, bu⟩ := bd.of_arrayOf
      · rw [top]
        exact arrayOf_below_object _
      · cases arrayOf_injective same
        obtain _ | ac := au
        obtain _ | bc := bu
        exact below_arrayOf (ih (names_arrayOf.1 ina) (names_arrayOf.1 inb) ac bc)
  | apart apart =>
    rw [apart.eq_object ad bd]
    exact .refl least.order _

theorem merge_least (least : H.IsLeast K R) {a b : RefType} (ina : a.Within K D)
    (inb : b.Within K D) :
    ∃ r, answer (merge H.source a b) = .ok r ∧
      ∀ d, a.Below R d → b.Below R d → r.Below R d := by
  have ina := (within_iff.1 ina).1
  have inb := (within_iff.1 inb).1
  obtain ⟨r, ok⟩ := exists_merge least.exists_common ina inb
  exact ⟨r, ok, fun d => (merges_of_ok ok).least least ina inb⟩

end RefType

namespace FlowType

def Within (K : BinaryName → Prop) (D : Nat) : FlowType → Prop
  | .object r => r.Within K D
  | .uninitialized made => made.type.Within K D
  | _ => True

def Names (K : BinaryName → Prop) : FlowType → Prop
  | .object r => r.Names K
  | .uninitialized made => made.type.Names K
  | _ => True

theorem names_true (t : FlowType) : t.Names fun _ => True := by
  cases t with
  | object r => exact r.names_true
  | uninitialized made => exact made.type.names_true
  | _ => trivial

theorem Within.names {t : FlowType} (within : t.Within K D) : t.Names K := by
  cases t with
  | object r => exact (RefType.within_iff.1 within).1
  | uninitialized made => exact (RefType.within_iff.1 within).1
  | _ => trivial

theorem Within.mono {D' : Nat} (less : D ≤ D') {t : FlowType} (within : t.Within K D) :
    t.Within K D' := by
  have ref {r : RefType} (within : r.Within K D) : r.Within K D' :=
    RefType.within_iff.2 ((RefType.within_iff.1 within).imp_right fun short => Nat.le_trans short less)
  cases t with
  | object r => exact ref within
  | uninitialized made => exact ref within
  | _ => trivial

theorem exists_within_of_names {ts : List FlowType} (names : ∀ t ∈ ts, t.Names K) :
    ∃ D, ∀ t ∈ ts, t.Within K D := by
  induction ts with
  | nil => exact ⟨0, by simp⟩
  | cons t ts ih =>
    obtain ⟨first, rest⟩ := List.forall_mem_cons.1 names
    obtain ⟨D, within⟩ := ih rest
    have here : ∃ D, t.Within K D := by
      cases t with
      | object r => exact ⟨r.dimensions, RefType.within_iff.2 ⟨first, Nat.le_refl _⟩⟩
      | uninitialized made => exact ⟨made.type.dimensions, RefType.within_iff.2 ⟨first, Nat.le_refl _⟩⟩
      | _ => exact ⟨0, trivial⟩
    obtain ⟨D', within'⟩ := here
    refine ⟨max D' D, List.forall_mem_cons.2 ⟨within'.mono (Nat.le_max_left _ _), fun t there => ?_⟩⟩
    exact (within t there).mono (Nat.le_max_right _ _)

theorem exists_within {a b : FlowType} (namesa : a.Names K) (namesb : b.Names K) :
    ∃ D, a.Within K D ∧ b.Within K D := by
  obtain ⟨D, within⟩ := exists_within_of_names
    (List.forall_mem_cons.2 ⟨namesa, List.forall_mem_singleton.2 namesb⟩)
  exact ⟨D, within a (by simp), within b (by simp)⟩

theorem answer_merge (a b : FlowType) :
    answer (merge H.source a b) =
      if a = b then .ok (some a)
      else
        match a, b with
        | .null, .object _ => .ok (some b)
        | .object _, .null => .ok (some a)
        | .object a, .object b => (some <| .object ·) <$> answer (RefType.merge H.source a b)
        | _, _ => .ok none := by
  unfold merge
  split
  · rfl
  · cases a <;> cases b
    case object.object => simp only [answer_bind, answer_pure]; rfl
    all_goals rfl

inductive Merges (H : Hierarchy) : FlowType → FlowType → FlowType → Prop
  | same (t : FlowType) : Merges H t t t
  | left (r : RefType) : Merges H (.object r) .null (.object r)
  | right (r : RefType) : Merges H .null (.object r) (.object r)
  | object {a b r : RefType} (different : a ≠ b)
      (ok : answer (RefType.merge H.source a b) = .ok r) :
      Merges H (.object a) (.object b) (.object r)

theorem merges_of_ok {a b t : FlowType} (ok : answer (merge H.source a b) = .ok (some t)) :
    Merges H a b t := by
  rw [answer_merge] at ok
  split at ok
  next same => cases ok; subst same; exact .same a
  next different =>
    cases a <;> cases b <;> simp only [Except.ok.injEq, Option.some.injEq, reduceCtorEq] at ok
    case null.object => cases ok; exact .right _
    case object.null => cases ok; exact .left _
    case object.object a b =>
      obtain ⟨r, inner, same⟩ := map_eq_ok.1 ok
      cases same
      exact .object (fun same => different (congrArg _ same)) inner

theorem Merges.answer_eq {a b t : FlowType} (merges : Merges H a b t) :
    answer (merge H.source a b) = .ok (some t) := by
  rw [answer_merge]
  cases merges with
  | same => rw [if_pos rfl]
  | left r => rfl
  | right r => rfl
  | object different ok =>
    rw [if_neg (by simpa using different)]
    exact map_eq_ok.2 ⟨_, ok, rfl⟩

theorem Merges.upper (upper : H.IsCovering K R) {a b t : FlowType} (merges : Merges H a b t)
    (ina : Within K D a) (inb : Within K D b) :
    Within K D t ∧ FlowType.Below R a t ∧ FlowType.Below R b t := by
  cases merges with
  | same => exact ⟨ina, .same _, .same _⟩
  | left r => exact ⟨ina, .same _, .null r⟩
  | right r => exact ⟨inb, .null r, .same _⟩
  | object _ ok =>
    obtain ⟨inr, ar, br⟩ := RefType.merge_upper upper ina inb ok
    exact ⟨inr, .object ar, .object br⟩

/-- Nothing is above two types that do not merge, and what is above two that do is above their
merge. -/
theorem merge_least (least : H.IsLeast K R) {a b d : FlowType} (ina : Within K D a)
    (inb : Within K D b) (ad : FlowType.Below R a d) (bd : FlowType.Below R b d) :
    ∃ t, Merges H a b t ∧ FlowType.Below R t d := by
  by_cases same : a = b
  · subst same
    exact ⟨a, .same a, ad⟩
  · cases ad with
    | same =>
      cases bd with
      | same => exact absurd rfl same
      | null r => exact ⟨_, .left r, .same _⟩
      | object below =>
        obtain ⟨r, ok, above⟩ := RefType.merge_least least ina inb
        exact ⟨_, .object (by simpa using same) ok,
          .object (above _ (.refl least.order _) below)⟩
    | null r =>
      cases bd with
      | same => exact ⟨_, .right r, .same _⟩
      | null => exact absurd rfl same
      | object below => exact ⟨_, .right _, .object below⟩
    | object below =>
      cases bd with
      | same =>
        obtain ⟨r, ok, above⟩ := RefType.merge_least least ina inb
        exact ⟨_, .object (by simpa using same) ok,
          .object (above _ below (.refl least.order _))⟩
      | null => exact ⟨_, .left _, .object below⟩
      | object below' =>
        obtain ⟨r, ok, above⟩ := RefType.merge_least least ina inb
        exact ⟨_, .object (by simpa using same) ok, .object (above _ below below')⟩

theorem merge_ok (least : H.IsLeast K R) {a b : FlowType} (ina : Within K D a)
    (inb : Within K D b) : ∃ t, answer (merge H.source a b) = .ok t := by
  rw [answer_merge]
  split
  · exact ⟨_, rfl⟩
  · cases a <;> cases b <;> try exact ⟨_, rfl⟩
    case object.object a b =>
      obtain ⟨r, ok, _⟩ := RefType.merge_least least ina inb
      exact ⟨_, map_eq_ok.2 ⟨r, ok, rfl⟩⟩

theorem answer_mergeLocal (a b : FlowType) :
    answer (mergeLocal H.source a b) = (·.getD .top) <$> answer (merge H.source a b) := by
  simp only [mergeLocal, answer_bind, answer_pure]
  rfl

theorem mergeLocal_cases {a b t : FlowType} (ok : answer (mergeLocal H.source a b) = .ok t) :
    t = .top ∨ Merges H a b t := by
  rw [answer_mergeLocal] at ok
  obtain ⟨merged, inner, rfl⟩ := map_eq_ok.1 ok
  cases merged with
  | none => exact .inl rfl
  | some t => exact .inr (merges_of_ok inner)

theorem mergeLocal_upper (upper : H.IsCovering K R) {a b t : FlowType}
    (ok : answer (mergeLocal H.source a b) = .ok t) (ina : Within K D a) (inb : Within K D b) :
    Within K D t ∧ LocalBelow R a t ∧ LocalBelow R b t := by
  obtain rfl | merges := mergeLocal_cases ok
  · exact ⟨trivial, .inl rfl, .inl rfl⟩
  · obtain ⟨inside, at_, bt⟩ := merges.upper upper ina inb
    exact ⟨inside, .inr at_, .inr bt⟩

theorem mergeLocal_least (least : H.IsLeast K R) {a b d : FlowType} (ina : Within K D a)
    (inb : Within K D b) (ad : LocalBelow R a d) (bd : LocalBelow R b d) :
    ∃ t, answer (mergeLocal H.source a b) = .ok t ∧ LocalBelow R t d := by
  rw [answer_mergeLocal]
  obtain ⟨merged, ok⟩ := merge_ok least ina inb
  refine ⟨_, map_eq_ok.2 ⟨merged, ok, rfl⟩, ?_⟩
  obtain rfl | ad := ad
  · exact .inl rfl
  · obtain rfl | bd := bd
    · exact .inl rfl
    · obtain ⟨t, merges, below⟩ := merge_least least ina inb ad bd
      rw [merges.answer_eq] at ok
      cases ok
      exact .inr below

end FlowType

end StackMaps
