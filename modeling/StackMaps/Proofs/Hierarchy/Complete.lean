import StackMaps.Proofs.Frame.Merge
import StackMaps.Proofs.Hierarchy.Built
import StackMaps.Proofs.Hierarchy.Rank

/-! Where every class that is known leads up to `java/lang/Object` through classes that are no
interfaces, the common superclass of two classes is the least class above both. -/

namespace StackMaps.Hierarchy

variable {H : Hierarchy} {a b c d n m : BinaryName}

/-- Superclass links lead from every known class to `java/lang/Object`, so that there are no circles
and no unknown classes on the way, and never to an interface. -/
structure IsComplete (H : Hierarchy) : Prop where
  inherits_object : ∀ n, H.IsKnown n → H.Inherits n .object
  isClass : ∀ c d, H.Extends c d → H.isInterface d = false

/-- The common superclass of two classes is the second. -/
def JoinsTo (H : Hierarchy) (a b : BinaryName) : Prop := answer (H.source.commonSuperclass a b) = .ok b

namespace IsComplete

variable (complete : H.IsComplete) (rooted : H.IsRooted) (object : H.IsKnown .object)

include complete in
theorem apart (rooted : H.IsRooted) : ¬ H.Circle a b := by
  intro circle
  have topa := complete.inherits_object a (circle.isKnown (.refl a))
  have topb := complete.inherits_object b (circle.symm.isKnown (.refl b))
  have samea := rooted.eq_of_inherits (circle.inherits_back topa)
  have sameb := rooted.eq_of_inherits (circle.symm.inherits_back topb)
  exact circle.different (samea.trans sameb.symm)

include complete in
theorem isInterface_of_inherits (up : H.Inherits n m) (cls : H.isInterface n = false) :
    H.isInterface m = false := by
  cases up with
  | refl => exact cls
  | tail _ link => exact complete.isClass _ _ link

include complete rooted object

theorem isKnown (known : H.IsKnown n) (up : H.Inherits n m) : H.IsKnown m := by
  induction up with
  | refl => exact known
  | @tail m m' _ link ih =>
    obtain same | ⟨m'', link', further⟩ := (complete.inherits_object m ih).eq_or_extends
    · subst same
      obtain ⟨h, found, up⟩ := link
      rw [rooted h found] at up
      cases up
    · cases link.unique link'
      obtain rfl | ⟨_, link, _⟩ := further.eq_or_extends
      · exact object
      · exact link.isKnown

theorem exists_chain (known : H.IsKnown n) : ∃ chain, answer (H.source.superclasses n) = .ok chain :=
  superclasses_ok fun _ up => complete.isKnown rooted object known up

theorem exists_common (knowna : H.IsKnown a) (knownb : H.IsKnown b) :
    ∃ c, answer (H.source.commonSuperclass a b) = .ok c := by
  by_cases same : a = b
  · exact ⟨a, by rw [same, answer_commonSuperclass_self]⟩
  · obtain ⟨ha, founda⟩ := knowna
    obtain ⟨hb, foundb⟩ := knownb
    obtain ⟨above, chaina⟩ := complete.exists_chain rooted object ⟨ha, founda⟩
    obtain ⟨candidates, chainb⟩ := complete.exists_chain rooted object ⟨hb, foundb⟩
    rw [answer_commonSuperclass same founda foundb, chaina, chainb]
    split
    · exact ⟨_, rfl⟩
    · exact ⟨_, rfl⟩

theorem joinsTo_iff : H.JoinsTo a d ↔ a = d ∨ H.IsKnown a ∧ H.IsKnown d ∧
    (d = .object ∨ H.isInterface a = false ∧ H.Inherits a d) := by
  constructor
  · intro joins
    cases common_of_ok joins with
    | same _ result => exact .inl result.symm
    | interface _ knowna knownd _ result => exact .inr ⟨knowna, knownd, .inl result⟩
    | nearest _ classa _ above candidates chaina chaind result =>
      refine .inr ⟨isKnown_of_superclasses chaina (.refl a), isKnown_of_superclasses chaind (.refl d), ?_⟩
      cases found : candidates.find? (above.contains ·) with
      | none => exact .inl (by rw [result, found]; rfl)
      | some e =>
        rw [found, Option.getD_some] at result
        subst result
        have member := List.find?_some found
        simp only [List.contains_iff_mem] at member
        exact .inr ⟨classa, (mem_superclasses chaina).1 member⟩
  · rintro (rfl | ⟨knowna, knownd, top⟩)
    · exact answer_commonSuperclass_self a
    · have up : H.Inherits a d := by
        obtain rfl | ⟨_, up⟩ := top
        · exact complete.inherits_object a knowna
        · exact up
      by_cases same : a = d
      · rw [same]
        exact answer_commonSuperclass_self d
      obtain ⟨above, chaina⟩ := complete.exists_chain rooted object knowna
      obtain ⟨candidates, chaind⟩ := complete.exists_chain rooted object knownd
      by_cases classes : H.isInterface a = false ∧ H.isInterface d = false
      · exact commonSuperclass_of_inherits classes.1 classes.2 up chaina chaind
      · have object : d = .object := by
          obtain rfl | ⟨classa, up⟩ := top
          · rfl
          · exact absurd ⟨classa, complete.isInterface_of_inherits up classa⟩ classes
        obtain ⟨ha, founda⟩ := knowna
        obtain ⟨hd, foundd⟩ := knownd
        rw [isInterface_eq founda, isInterface_eq foundd] at classes
        have some : (ha.isInterface || hd.isInterface) = true := by
          rw [not_and_or, Bool.not_eq_false, Bool.not_eq_false] at classes
          simpa using classes
        rw [JoinsTo, answer_commonSuperclass same founda foundd, if_pos some, object]

omit rooted object in
/-- The first class on one chain of superclasses that is on another one is the least that is on both. -/
theorem exists_nearest {above candidates : List BinaryName}
    (chaina : answer (H.source.superclasses a) = .ok above)
    (chainb : answer (H.source.superclasses b) = .ok candidates) :
    ∃ c, candidates.find? (above.contains ·) = some c ∧ H.Inherits a c ∧ H.Inherits b c ∧
      ∀ d, H.Inherits a d → H.Inherits b d → H.Inherits c d := by
  have knowna := isKnown_of_superclasses chaina (.refl a)
  have knownb := isKnown_of_superclasses chainb (.refl b)
  cases found : candidates.find? (above.contains ·) with
  | none =>
    have top := List.find?_eq_none.1 found .object
      ((mem_superclasses chainb).2 (complete.inherits_object b knownb))
    simp only [List.contains_iff_mem] at top
    exact absurd ((mem_superclasses chaina).2 (complete.inherits_object a knowna)) top
  | some c =>
    obtain ⟨member, before, after, same, first⟩ := List.find?_eq_some_iff_append.1 found
    simp only [List.contains_iff_mem] at member
    have up := (mem_superclasses chainb).1 (List.mem_of_find?_eq_some found)
    refine ⟨c, rfl, (mem_superclasses chaina).1 member, up, fun d ad bd => ?_⟩
    have pairwise := chainFrom_pairwise chainb
    have there := (mem_superclasses chainb).2 bd
    rw [same] at pairwise there
    obtain early | there := List.mem_append.1 there
    · have miss := first d early
      simp [(mem_superclasses chaina).2 ad] at miss
    · obtain rfl | late := List.mem_cons.1 there
      · exact .refl _
      · exact (List.pairwise_cons.1 (List.pairwise_append.1 pairwise).2.1).1 d late

omit rooted object in
/-- The common superclass of different classes is the least of all that are above both; where one of
them is an interface it is `java/lang/Object`. -/
theorem common_cases (different : a ≠ b) (ok : answer (H.source.commonSuperclass a b) = .ok c) :
    c = .object ∧ (H.isInterface a = true ∨ H.isInterface b = true) ∨
      H.isInterface a = false ∧ H.isInterface b = false ∧ H.Inherits a c ∧ H.Inherits b c ∧
        ∀ d, H.Inherits a d → H.Inherits b d → H.Inherits c d := by
  cases common_of_ok ok with
  | same equal _ => exact absurd equal different
  | interface _ _ _ some result => exact .inl ⟨result, some⟩
  | nearest _ classa classb above candidates chaina chainb result =>
    obtain ⟨e, found, nearest⟩ := complete.exists_nearest chaina chainb
    rw [found, Option.getD_some] at result
    exact .inr ⟨classa, classb, result ▸ nearest⟩

omit object in
theorem inherits_antisymm (ab : H.Inherits a b) (ba : H.Inherits b a) : a = b := by
  by_contra different
  have cls {c d : BinaryName} (apart : c ≠ d) (up : H.Inherits c d) : H.isInterface d = false := by
    obtain rfl | ⟨m, _, link⟩ := Relation.ReflTransGen.cases_tail up
    · exact absurd rfl apart
    · exact complete.isClass m d link
  exact complete.apart rooted ⟨different, cls (Ne.symm different) ba, cls different ab, ab, ba⟩

theorem exists_nearest_common (knowna : H.IsKnown a) (knownb : H.IsKnown b)
    (classes : a = b ∨ H.isInterface a = false ∧ H.isInterface b = false) :
    ∃ above above' c, answer (H.source.superclasses a) = .ok above ∧
      answer (H.source.superclasses b) = .ok above' ∧
      above.find? (above'.contains ·) = some c ∧ above'.find? (above.contains ·) = some c ∧
      answer (H.source.commonSuperclass a b) = .ok c := by
  obtain ⟨above, chaina⟩ := complete.exists_chain rooted object knowna
  obtain ⟨above', chainb⟩ := complete.exists_chain rooted object knownb
  obtain ⟨c, found, ac, bc, least⟩ := complete.exists_nearest chaina chainb
  obtain ⟨c', found', bc', ac', least'⟩ := complete.exists_nearest chainb chaina
  cases complete.inherits_antisymm rooted (least c' ac' bc') (least' c bc ac)
  refine ⟨above, above', c, chaina, chainb, found', found, ?_⟩
  by_cases same : a = b
  · subst same
    rw [answer_commonSuperclass_self]
    exact congrArg _ (complete.inherits_antisymm rooted ac (least a (.refl a) (.refl a)))
  · obtain ⟨ha, founda⟩ := knowna
    obtain ⟨hb, foundb⟩ := knownb
    obtain ⟨classa, classb⟩ := classes.resolve_left same
    rw [isInterface_eq founda] at classa
    rw [isInterface_eq foundb] at classb
    rw [answer_commonSuperclass same founda foundb, classa, classb, chaina, chainb]
    simp only [Bool.or_self, Bool.false_eq_true, ↓reduceIte]
    change Except.ok ((above'.find? (above.contains ·)).getD .object) = _
    rw [found]
    rfl

theorem isNameOrder : IsNameOrder H.JoinsTo where
  refl := answer_commonSuperclass_self
  trans a b c ab bc := by
    rw [complete.joinsTo_iff rooted object] at ab bc ⊢
    obtain rfl | ⟨knowna, knownb, ab⟩ := ab
    · exact bc
    · obtain rfl | ⟨_, knownc, bc⟩ := bc
      · exact .inr ⟨knowna, knownb, ab⟩
      · refine .inr ⟨knowna, knownc, ?_⟩
        obtain top | ⟨classb, bc⟩ := bc
        · exact .inl top
        · obtain rfl | ⟨classa, ab⟩ := ab
          · exact .inl (rooted.eq_of_inherits bc)
          · exact .inr ⟨classa, ab.trans bc⟩
  eq_object a above := by
    obtain same | ⟨_, _, top | ⟨_, up⟩⟩ := (complete.joinsTo_iff rooted object).1 above
    · exact same.symm
    · exact top
    · exact rooted.eq_of_inherits up

theorem joinsTo_antisymm (ab : H.JoinsTo a b) (ba : H.JoinsTo b a) : a = b := by
  have order := complete.isNameOrder rooted object
  obtain same | ⟨_, _, rfl | ⟨_, up⟩⟩ := (complete.joinsTo_iff rooted object).1 ab
  · exact same
  · exact order.eq_object a ba
  · obtain same | ⟨_, _, rfl | ⟨_, down⟩⟩ := (complete.joinsTo_iff rooted object).1 ba
    · exact same.symm
    · exact (order.eq_object b ab).symm
    · exact complete.inherits_antisymm rooted up down

theorem isUpper : H.IsUpper H.IsKnown H.JoinsTo where
  order := complete.isNameOrder rooted object
  object_mem := object
  under_object a known := (complete.joinsTo_iff rooted object).2 (.inr ⟨known, object, .inl rfl⟩)
  upper a b c knowna knownb ok := by
    have above {n : BinaryName} (known : H.IsKnown n)
        (up : c = .object ∨ H.isInterface n = false ∧ H.Inherits n c) : H.IsKnown c ∧ H.JoinsTo n c := by
      have knownc : H.IsKnown c := by
        obtain rfl | ⟨_, up⟩ := up
        · exact object
        · exact complete.isKnown rooted object known up
      exact ⟨knownc, (complete.joinsTo_iff rooted object).2 (.inr ⟨known, knownc, up⟩)⟩
    by_cases different : a = b
    · subst different
      rw [answer_commonSuperclass_self] at ok
      cases ok
      exact ⟨knowna, answer_commonSuperclass_self a, answer_commonSuperclass_self a⟩
    · obtain ⟨top, _⟩ | ⟨classa, classb, upa, upb, _⟩ := complete.common_cases different ok
      · exact ⟨(above knowna (.inl top)).1, (above knowna (.inl top)).2, (above knownb (.inl top)).2⟩
      · obtain ⟨knownc, belowa⟩ := above knowna (.inr ⟨classa, upa⟩)
        exact ⟨knownc, belowa, (above knownb (.inr ⟨classb, upb⟩)).2⟩

/-- Common superclasses are least upper bounds. -/
theorem isLeast : H.IsLeast H.IsKnown H.JoinsTo where
  toIsUpper := complete.isUpper rooted object
  exists_common a b knowna knownb := complete.exists_common rooted object knowna knownb
  least a b c d knowna knownb ok ad bd := by
    obtain ⟨knownc, ac, bc⟩ := (complete.isUpper rooted object).upper a b c knowna knownb ok
    have top : H.JoinsTo c .object := (complete.isUpper rooted object).under_object c knownc
    by_cases different : a = b
    · subst different
      rw [answer_commonSuperclass_self] at ok
      cases ok
      exact ad
    have up {n : BinaryName} (known : H.IsKnown n) (nd : H.JoinsTo n d) :
        d = .object ∨ H.IsKnown d ∧ H.Inherits n d ∧ (n = d ∨ H.isInterface n = false) := by
      obtain rfl | ⟨_, knownd, rfl | ⟨cls, up⟩⟩ := (complete.joinsTo_iff rooted object).1 nd
      · exact .inr ⟨known, .refl _, .inl rfl⟩
      · exact .inl rfl
      · exact .inr ⟨knownd, up, .inr cls⟩
    obtain rfl | ⟨knownd, upa', ad⟩ := up knowna ad
    · exact top
    obtain rfl | ⟨_, upb', bd⟩ := up knownb bd
    · exact top
    obtain ⟨_, interface⟩ | ⟨classa, _, upa, _, least⟩ := complete.common_cases different ok
    · -- A class is not below an interface, so that nothing but `java/lang/Object` is above both.
      obtain rfl | classa := ad
      · obtain same | classb := bd
        · exact absurd same.symm different
        · have classa := complete.isInterface_of_inherits upb' classb
          simp [classa, classb] at interface
      · obtain rfl | classb := bd
        · have classb := complete.isInterface_of_inherits upa' classa
          simp [classa, classb] at interface
        · simp [classa, classb] at interface
    · have classc := complete.isInterface_of_inherits upa classa
      exact (complete.joinsTo_iff rooted object).2
        (.inr ⟨knownc, knownd, .inr ⟨classc, least d upa' upb'⟩⟩)

end IsComplete

theorem isComplete_standard : (ClassGraph.standard.hierarchy .empty).IsComplete where
  inherits_object n known := by
    obtain ⟨h, found⟩ := known
    obtain ⟨member, rfl⟩ := ClassGraph.mem_known found
    have all : ∀ h ∈ StandardClasses.all, ((answer
        ((ClassGraph.standard.hierarchy .empty).source.superclasses h.name)).toOption.any
        (·.contains BinaryName.object)) = true := by decide +kernel
    obtain ⟨chain, ok, here⟩ := (Option.any_eq_true _ _).1 (all h member)
    exact (mem_superclasses (toOption_eq_some.1 ok)).1 (List.contains_iff_mem.1 here)
  isClass c d link := by
    obtain ⟨h, found, up⟩ := link
    obtain ⟨member, rfl⟩ := ClassGraph.mem_known found
    have all : ∀ h ∈ StandardClasses.all, ∀ d ∈ h.superclass,
        (ClassGraph.standard.hierarchy .empty).isInterface d = false := by decide +kernel
    exact all h member d up

end StackMaps.Hierarchy
