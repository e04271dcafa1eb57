import StackMaps.Proofs.Flow.Lazy
import StackMaps.Proofs.Frame.Assignable
import StackMaps.Proofs.Frame.Joined
import StackMaps.Proofs.Frame.Mentions
import StackMaps.Proofs.Hierarchy.Complete

/-! The merge of two types can be used for both, whatever the classes. Where superclass links end in
`java/lang/Object` it is the least type above both, so that it does not matter in which order types and
frames are merged. -/

namespace StackMaps

/-- A merge that gives the least element above two elements of `P`, wherever there is one above both. -/
structure IsJoin {α ε : Type} (P : α → Prop) (le : α → α → Prop) (merge : α → α → Except ε α) :
    Prop where
  refl : ∀ a, le a a
  trans : ∀ a b c, le a b → le b c → le a c
  antisymm : ∀ a b, le a b → le b a → a = b
  upper : ∀ a b t, P a → P b → merge a b = .ok t → P t ∧ le a t ∧ le b t
  least : ∀ a b d, P a → P b → le a d → le b d → ∃ t, merge a b = .ok t ∧ le t d

namespace IsJoin

variable {α ε : Type} {P : α → Prop} {le : α → α → Prop} {merge : α → α → Except ε α}
  {a b c t : α} {as bs : List α}

theorem eq_of_le_iff (join : IsJoin P le merge) {t' : α} (same : ∀ d, le t d ↔ le t' d) : t = t' :=
  join.antisymm t t' ((same t').2 (join.refl t')) ((same t).1 (join.refl t))

theorem le_iff (join : IsJoin P le merge) (ina : P a) (inb : P b) (ok : merge a b = .ok t) (d : α) :
    le t d ↔ le a d ∧ le b d := by
  obtain ⟨_, above, above'⟩ := join.upper a b t ina inb ok
  constructor
  · exact fun up => ⟨join.trans _ _ _ above up, join.trans _ _ _ above' up⟩
  · rintro ⟨ad, bd⟩
    obtain ⟨t', ok', below⟩ := join.least a b d ina inb ad bd
    rw [ok] at ok'
    cases ok'
    exact below

theorem foldlM_eq_ok (join : IsJoin P le merge) (inside : ∀ x ∈ a :: as, P x) :
    as.foldlM merge a = .ok t ↔ ∀ d, le t d ↔ ∀ x ∈ a :: as, le x d := by
  induction as generalizing a with
  | nil =>
    simp only [List.foldlM_nil, List.forall_mem_singleton]
    constructor
    · intro ok
      cases ok
      exact fun _ => Iff.rfl
    · intro same
      rw [join.eq_of_le_iff same]
      rfl
  | cons b as ih =>
    have ina := inside a List.mem_cons_self
    have inb := inside b (List.mem_cons_of_mem a List.mem_cons_self)
    have step {m : α} (ok : merge a b = .ok m) :
        (∀ x ∈ m :: as, P x) ∧ ∀ d, (∀ x ∈ m :: as, le x d) ↔ ∀ x ∈ a :: b :: as, le x d := by
      constructor
      · refine List.forall_mem_cons.2 ⟨(join.upper a b m ina inb ok).1, fun x there => ?_⟩
        exact inside x (List.mem_cons_of_mem a (List.mem_cons_of_mem b there))
      · intro d
        simp only [List.forall_mem_cons, join.le_iff ina inb ok, and_assoc]
    rw [List.foldlM_cons, bind_eq_ok]
    constructor
    · rintro ⟨m, ok, rest⟩ d
      rw [(ih (step ok).1).1 rest d, (step ok).2 d]
    · intro same
      have above := (same t).1 (join.refl t)
      obtain ⟨m, ok, _⟩ := join.least a b t ina inb (above a List.mem_cons_self)
        (above b (List.mem_cons_of_mem a List.mem_cons_self))
      exact ⟨m, ok, (ih (step ok).1).2 fun d => (same d).trans ((step ok).2 d).symm⟩

theorem foldlM_congr (join : IsJoin P le merge) (inside : ∀ x ∈ a :: as, P x)
    (same : ∀ x, x ∈ a :: as ↔ x ∈ b :: bs) : as.foldlM merge a = .ok t ↔ bs.foldlM merge b = .ok t := by
  rw [join.foldlM_eq_ok inside, join.foldlM_eq_ok fun x there => inside x ((same x).2 there)]
  simp only [same]

theorem merge_eq_foldlM (merge : α → α → Except ε α) (a b : α) :
    merge a b = [b].foldlM merge a := by
  rw [List.foldlM_cons]
  exact (bind_pure _).symm

theorem comm (join : IsJoin P le merge) (ina : P a) (inb : P b) :
    merge a b = .ok t ↔ merge b a = .ok t := by
  rw [merge_eq_foldlM merge a, merge_eq_foldlM merge b]
  exact join.foldlM_congr (by simp [ina, inb]) fun x => by simp [or_comm]

theorem assoc (join : IsJoin P le merge) (ina : P a) (inb : P b) (inc : P c) :
    (merge a b >>= fun ab => merge ab c) = .ok t ↔ (merge b c >>= fun bc => merge a bc) = .ok t := by
  have left : (merge a b >>= fun ab => merge ab c) = [b, c].foldlM merge a := by
    rw [List.foldlM_cons]
    exact congrArg _ (funext fun ab => merge_eq_foldlM merge ab c)
  have right : (merge b c >>= fun bc => merge a bc) = .ok t ↔ [c, a].foldlM merge b = .ok t := by
    rw [List.foldlM_cons, bind_eq_ok, bind_eq_ok]
    refine exists_congr fun bc => and_congr_right fun ok => ?_
    rw [← merge_eq_foldlM merge bc]
    exact join.comm ina (join.upper b c bc inb inc ok).1
  rw [left, right]
  refine join.foldlM_congr (by simp [ina, inb, inc]) fun x => ?_
  simp only [List.mem_cons, List.not_mem_nil, or_false]
  exact or_rotate

end IsJoin

variable {K : BinaryName → Prop} {R : BinaryName → BinaryName → Prop} {D N : Nat}

def Frame.Names (K : BinaryName → Prop) (f : Frame) : Prop :=
  (∀ t ∈ f.locals, t.Names K) ∧ ∀ t ∈ f.stack, t.Names K

theorem Frame.exists_within_of_names {fs : List Frame} (names : ∀ f ∈ fs, f.Names K) :
    ∃ D, ∀ f ∈ fs, f.Within K D := by
  obtain ⟨D, within⟩ := @FlowType.exists_within_of_names K (fs.flatMap fun f => f.locals ++ f.stack)
    fun t there => by
      obtain ⟨f, member, there⟩ := List.mem_flatMap.1 there
      exact (List.mem_append.1 there).elim ((names f member).1 t) ((names f member).2 t)
  refine ⟨D, fun f member => ⟨fun t there => within t ?_, fun t there => within t ?_⟩⟩
  · exact List.mem_flatMap.2 ⟨f, member, List.mem_append_left _ there⟩
  · exact List.mem_flatMap.2 ⟨f, member, List.mem_append_right _ there⟩

variable {H : Hierarchy}

theorem FlowType.isJoin (least : H.IsLeast K R) (antisymm : ∀ a b, R a b → R b a → a = b) :
    IsJoin (FlowType.Within K D) (FlowType.LocalBelow R)
      fun a b => answer (FlowType.mergeLocal H.source a b) where
  refl := .refl
  trans _ _ _ ab bc := ab.trans least.order bc
  antisymm _ _ ab ba := ab.antisymm antisymm ba
  upper _ _ _ ina inb ok := FlowType.mergeLocal_upper least.toIsCovering ok ina inb
  least _ _ _ ina inb ad bd := FlowType.mergeLocal_least least ina inb ad bd

theorem Frame.isJoin (least : H.IsLeast K R) (antisymm : ∀ a b, R a b → R b a → a = b) (offset : Nat) :
    IsJoin (Frame.Fits K D N) (Frame.Below R)
      fun f g => answer (Frame.merge H.source offset f g) where
  refl := .refl
  trans _ _ _ fg gh := fg.trans least.order gh
  antisymm _ _ fg gf := fg.antisymm antisymm gf
  upper f g t inf ing ok := by
    have merges := (Frame.merge_eq_ok (inf.2.trans ing.2.symm)).1 ok
    obtain ⟨within, below, below'⟩ := merges.upper least.toIsCovering inf.1 ing.1
    exact ⟨⟨within, merges.locals.length_merged.trans inf.2⟩, below, below'⟩
  least f g d inf ing fd gd := by
    obtain ⟨t, merges, below⟩ := Frame.merge_least least inf.1 ing.1 fd gd
    exact ⟨t, (Frame.merge_eq_ok (inf.2.trans ing.2.symm)).2 merges, below⟩

theorem FlowType.mergeLocal_ok (least : H.IsLeast K R) {a b : FlowType} (ina : a.Within K D)
    (inb : b.Within K D) :
    ∃ t, answer (FlowType.mergeLocal H.source a b) = .ok t ∧ t.Within K D := by
  obtain ⟨t, ok, _⟩ := FlowType.mergeLocal_least least ina inb (.inl rfl) (.inl rfl)
  exact ⟨t, ok, (FlowType.mergeLocal_upper least.toIsCovering ok ina inb).1⟩

theorem FlowType.mergeLocal_top (a : FlowType) :
    answer (FlowType.mergeLocal H.source .top a) = .ok .top := by
  rw [FlowType.answer_mergeLocal, FlowType.answer_merge]
  cases a <;> rfl

theorem FlowType.merge_of_mergeLocal (least : H.IsLeast K R) {a b t : FlowType} (ina : a.Within K D)
    (inb : b.Within K D) (ok : answer (FlowType.mergeLocal H.source a b) = .ok t) :
    answer (FlowType.merge H.source a b) = .ok (if t = .top ∧ a ≠ b then none else some t) := by
  obtain ⟨merged, inner⟩ := FlowType.merge_ok least ina inb
  rw [FlowType.answer_mergeLocal, inner] at ok
  cases ok
  rw [inner]
  cases merged with
  | none =>
    have different : a ≠ b := by
      rintro rfl
      rw [FlowType.answer_merge, if_pos rfl] at inner
      cases inner
    exact congrArg _ (if_pos ⟨rfl, different⟩).symm
  | some t =>
    refine congrArg _ (if_neg ?_).symm
    rintro ⟨rfl, different⟩
    cases FlowType.merges_of_ok inner with
    | same => exact different rfl

namespace Frame

theorem mergeStackOnto_ok (least : H.IsLeast K R) {done as bs : List FlowType}
    (ina : ∀ a ∈ as, a.Within K D) (inb : ∀ b ∈ bs, b.Within K D) :
    ∃ merged, answer (mergeStackOnto H.source done as bs) = .ok merged := by
  induction as generalizing bs done with
  | nil => exact ⟨_, rfl⟩
  | cons a as ih =>
    cases bs with
    | nil => exact ⟨_, rfl⟩
    | cons b bs =>
      obtain ⟨ina, ina'⟩ := List.forall_mem_cons.1 ina
      obtain ⟨inb, inb'⟩ := List.forall_mem_cons.1 inb
      obtain ⟨merged, ok⟩ := FlowType.merge_ok least ina inb
      rw [mergeStackOnto, answer_bind, ok]
      cases merged with
      | none => exact ⟨_, rfl⟩
      | some t => exact ih ina' inb'

theorem mergeLocalsOnto_ok (least : H.IsLeast K R) {done as bs : List FlowType}
    (ina : ∀ a ∈ as, a.Within K D) (inb : ∀ b ∈ bs, b.Within K D) :
    ∃ merged, answer (mergeLocalsOnto H.source done as bs) = .ok merged := by
  induction as generalizing bs done with
  | nil => exact ⟨_, rfl⟩
  | cons a as ih =>
    cases bs with
    | nil => exact ⟨_, rfl⟩
    | cons b bs =>
      obtain ⟨ina, ina'⟩ := List.forall_mem_cons.1 ina
      obtain ⟨inb, inb'⟩ := List.forall_mem_cons.1 inb
      obtain ⟨t, ok, _⟩ := FlowType.mergeLocal_ok least ina inb
      rw [mergeLocalsOnto, answer_bind, ok]
      exact ih ina' inb'

/-- Frames of known classes fail to merge only where their stacks do not fit. -/
theorem merge_eq_error (least : H.IsLeast K R) {offset : Nat} {f g : Frame} {e : Error}
    (inf : f.Within K D) (ing : g.Within K D)
    (failed : answer (Frame.merge H.source offset f g) = .error e) :
    e = .incompatible offset f.stack.reverse g.stack.reverse := by
  obtain ⟨merged, entries⟩ : ∃ merged, answer (mergeStackOnto H.source [] f.stack.reverse
      g.stack.reverse) = .ok merged :=
    mergeStackOnto_ok least (by simpa using inf.2) (by simpa using ing.2)
  obtain ⟨locals, slots⟩ : ∃ locals, answer (mergeLocalsOnto H.source [] f.locals g.locals) =
      .ok locals := mergeLocalsOnto_ok least inf.1 ing.1
  unfold merge at failed
  split at failed
  · cases failed
    rfl
  · rw [answer_bind, answer_needing_eq_ok.2 entries] at failed
    cases merged with
    | none =>
      cases failed
      rfl
    | some stack =>
      change answer (needing offset (mergeLocalsOnto H.source [] f.locals g.locals) >>= _) = _ at failed
      rw [answer_bind, answer_needing_eq_ok.2 slots] at failed
      cases failed

theorem foldlM_merge_eq_error (least : H.IsLeast K R) (antisymm : ∀ a b, R a b → R b a → a = b)
    {offset : Nat} {f : Frame} {fs : List Frame} {e : Error} (inside : ∀ g ∈ f :: fs, g.Fits K D N)
    (failed : fs.foldlM (fun f g => answer (Frame.merge H.source offset f g)) f = .error e) :
    ∃ as bs, e = .incompatible offset as bs := by
  induction fs generalizing f with
  | nil => cases failed
  | cons g fs ih =>
    have inf := inside f List.mem_cons_self
    have ing := inside g (List.mem_cons_of_mem f List.mem_cons_self)
    rw [List.foldlM_cons] at failed
    cases merged : answer (Frame.merge H.source offset f g) with
    | error e' =>
      rw [merged] at failed
      cases failed
      exact ⟨_, _, merge_eq_error least inf.1 ing.1 merged⟩
    | ok t =>
      rw [merged] at failed
      have int := ((isJoin least antisymm offset).upper f g t inf ing merged).1
      refine ih (List.forall_mem_cons.2 ⟨int, fun x there => ?_⟩) failed
      exact inside x (List.mem_cons_of_mem f (List.mem_cons_of_mem g there))

end Frame

namespace ClassGraph

variable {l : FixedLoader} {g g' : ClassGraph}

/-- Whatever the classes of a graph, a merge of two types that succeeds can be used for both. -/
theorem isAssignable_of_merge {a b m : RefType}
    (ok : ((RefType.merge (g.source l.loader) a b).run.run g : Except BinaryName RefType × ClassGraph) =
      (.ok m, g')) :
    g'.isAssignable l a m = true ∧ g'.isAssignable l b m = true := by
  have follow : Follow l (g.hierarchy l) _ _ :=
    RefType.merge_lazily (HeaderSource.lazily_source g) a b
  obtain ⟨merged, agrees⟩ := follow g g.agrees_hierarchy
  rw [StateT.run] at ok
  rw [ok] at merged agrees
  obtain ⟨D, ina, inb⟩ := FlowType.exists_within (a := .object a) (b := .object b) a.names_true
    b.names_true
  obtain ⟨_, am, bm⟩ := RefType.merge_upper (g.hierarchy l).isCovering ina inb merged.symm
  have same : (g'.hierarchy l).Under = (g.hierarchy l).Under := Hierarchy.under_of_find (funext agrees)
  rw [← same] at am bm
  rw [isAssignable_eq, isAssignable_eq]
  exact ⟨am.assignable, bm.assignable⟩

def north : BinaryName := ⟨"road/North", by decide +kernel⟩
def south : BinaryName := ⟨"road/South", by decide +kernel⟩

/-- The standard classes, and two that say of each other that they are its superclass. -/
def roundabout : ClassGraph :=
  (standard.insert ⟨north, some south, [], .ofBits 0x0021⟩).insert
    ⟨south, some north, [], .ofBits 0x0021⟩

theorem isAssignable_of_merge_roundabout :
    ((RefType.merge (roundabout.source FixedLoader.empty.loader) (.array 1 (.object north))
      (.array 1 (.object south))).run.run roundabout : Except BinaryName RefType × ClassGraph) =
        (.ok (.array 1 (.object south)), roundabout) ∧
    roundabout.isAssignable .empty (.array 1 (.object north)) (.array 1 (.object south)) = true ∧
    roundabout.isAssignable .empty (.array 1 (.object south)) (.array 1 (.object south)) = true := by
  have ok : ((RefType.merge (roundabout.source FixedLoader.empty.loader) (.array 1 (.object north))
      (.array 1 (.object south))).run.run roundabout : Except BinaryName RefType × ClassGraph) =
        (.ok (.array 1 (.object south)), roundabout) := by rfl
  exact ⟨ok, isAssignable_of_merge ok⟩

/-- What frames become that arrive one after the other. -/
def mergeAll (g : ClassGraph) (s : HeaderSource (StateT ClassGraph Id)) (offset : Nat) (first : Frame)
    (rest : List Frame) : Except Error Frame := g.answer (rest.foldlM (Frame.merge s offset) first)

structure MergesJoin (g : ClassGraph) (s : HeaderSource (StateT ClassGraph Id)) (H : Hierarchy) :
    Prop where
  succeeds : ∀ a b : FlowType, a.Names H.IsKnown → b.Names H.IsKnown →
    ∃ t, g.answer (FlowType.mergeLocal s a b) = .ok t ∧ t.Names H.IsKnown ∧
      g.answer (FlowType.merge s a b) = .ok (if t = .top ∧ a ≠ b then none else some t)
  comm : ∀ a b : FlowType, a.Names H.IsKnown → b.Names H.IsKnown →
    g.answer (FlowType.mergeLocal s a b) = g.answer (FlowType.mergeLocal s b a)
  assoc : ∀ a b c : FlowType, a.Names H.IsKnown → b.Names H.IsKnown → c.Names H.IsKnown →
    g.answer (do
      let ab ← FlowType.mergeLocal s a b
      FlowType.mergeLocal s ab c) =
    g.answer (do
      let bc ← FlowType.mergeLocal s b c
      FlowType.mergeLocal s a bc)
  idem : ∀ a : FlowType, g.answer (FlowType.mergeLocal s a a) = .ok a
  top : ∀ a : FlowType, g.answer (FlowType.mergeLocal s .top a) = .ok .top ∧
    g.answer (FlowType.mergeLocal s a .top) = .ok .top
  interface : ∀ a b, H.IsKnown a → H.IsKnown b → a ≠ b →
    (H.isInterface a = true ∨ H.isInterface b = true) →
    g.answer (s.commonSuperclass a b) = .ok .object
  nearest : ∀ a b, H.IsKnown a → H.IsKnown b →
    (a = b ∨ H.isInterface a = false ∧ H.isInterface b = false) →
    ∃ above above' c, g.answer (s.superclasses a) = .ok above ∧
      g.answer (s.superclasses b) = .ok above' ∧
      above.find? (above'.contains ·) = some c ∧ above'.find? (above.contains ·) = some c ∧
      g.answer (s.commonSuperclass a b) = .ok c
  frames : ∀ (offset n : Nat) (f f' : Frame) (fs fs' : List Frame),
    (∀ h, h ∈ f :: fs ↔ h ∈ f' :: fs') →
    (∀ h ∈ f :: fs, h.Names H.IsKnown ∧ h.locals.length = n) →
    (∀ t, g.mergeAll s offset f fs = .ok t ↔ g.mergeAll s offset f' fs' = .ok t) ∧
    ∀ e, g.mergeAll s offset f fs = .error e → ∃ as bs, e = .incompatible offset as bs

theorem answer_mergeLocal (a b : FlowType) :
    g.answer (FlowType.mergeLocal (g.source l.loader) a b) =
      StackMaps.answer (FlowType.mergeLocal (g.hierarchy l).source a b) :=
  answer_eq (FlowType.mergeLocal_lazily (HeaderSource.lazily_source g) a b)

theorem answer_merge (a b : FlowType) :
    g.answer (FlowType.merge (g.source l.loader) a b) =
      StackMaps.answer (FlowType.merge (g.hierarchy l).source a b) :=
  answer_eq (FlowType.merge_lazily (HeaderSource.lazily_source g) a b)

theorem answer_mergeLocal_bind (a b : FlowType) {α : Type}
    {next : FlowType → Query (StateT ClassGraph Id) α} {next' : FlowType → Query Id α}
    (follow : ∀ t, Follow l (g.hierarchy l) (next t) (next' t)) :
    g.answer (FlowType.mergeLocal (g.source l.loader) a b >>= next) =
      StackMaps.answer (FlowType.mergeLocal (g.hierarchy l).source a b) >>=
        fun t => StackMaps.answer (next' t) := by
  rw [← answer_bind]
  exact answer_eq (.bind (FlowType.mergeLocal_lazily (HeaderSource.lazily_source g) a b) follow)

theorem mergeAll_eq (offset : Nat) (f : Frame) (fs : List Frame) :
    g.mergeAll (g.source l.loader) offset f fs =
      fs.foldlM (fun f h => StackMaps.answer (Frame.merge (g.hierarchy l).source offset f h)) f := by
  rw [← answer_foldlM]
  exact answer_eq (.foldlM (fun f h => Frame.merge_lazily (HeaderSource.lazily_source g) offset f h) f fs)

theorem answer_commonSuperclass (a b : BinaryName) :
    g.answer ((g.source l.loader).commonSuperclass a b) =
      StackMaps.answer ((g.hierarchy l).source.commonSuperclass a b) :=
  answer_eq (HeaderSource.commonSuperclass_lazily (HeaderSource.lazily_source g) a b)

theorem answer_superclasses (a : BinaryName) :
    g.answer ((g.source l.loader).superclasses a) =
      StackMaps.answer ((g.hierarchy l).source.superclasses a) :=
  answer_eq (HeaderSource.superclasses_tells (HeaderSource.lazily_source g).tells a)

/-- Where superclass links lead from all known classes to `java/lang/Object`, and never to an
interface, merges are joins. -/
theorem Built.mergesJoin (built : g.Built l) (complete : (g.hierarchy l).IsComplete) :
    g.MergesJoin (g.source l.loader) (g.hierarchy l) := by
  have object : (g.hierarchy l).IsKnown .object := ⟨_, built.find_standard rfl⟩
  have least := complete.isLeast built.isRooted object
  have antisymm : ∀ a b, (g.hierarchy l).JoinsTo a b → (g.hierarchy l).JoinsTo b a → a = b :=
    fun a b => complete.joinsTo_antisymm built.isRooted object
  exact {
    succeeds := fun a b namesa namesb => by
      obtain ⟨D, ina, inb⟩ := FlowType.exists_within namesa namesb
      obtain ⟨t, ok, int⟩ := FlowType.mergeLocal_ok least ina inb
      refine ⟨t, (answer_mergeLocal a b).trans ok, int.names, ?_⟩
      rw [answer_merge]
      exact FlowType.merge_of_mergeLocal least ina inb ok
    comm := fun a b namesa namesb => by
      obtain ⟨D, ina, inb⟩ := FlowType.exists_within namesa namesb
      obtain ⟨t, ok, _⟩ := FlowType.mergeLocal_ok least ina inb
      rw [answer_mergeLocal, answer_mergeLocal]
      exact eq_of_eq_ok_iff ⟨t, ok⟩ fun _ => (FlowType.isJoin least antisymm).comm ina inb
    assoc := fun a b c namesa namesb namesc => by
      obtain ⟨D, within⟩ := FlowType.exists_within_of_names
        (List.forall_mem_cons.2 ⟨namesa, List.forall_mem_cons.2 ⟨namesb,
          List.forall_mem_singleton.2 namesc⟩⟩)
      have ina := within a (by simp)
      have inb := within b (by simp)
      have inc := within c (by simp)
      have follow (a b : FlowType) := FlowType.mergeLocal_lazily (HeaderSource.lazily_source (l := l) g) a b
      obtain ⟨ab, ok, inab⟩ := FlowType.mergeLocal_ok least ina inb
      obtain ⟨t, ok', _⟩ := FlowType.mergeLocal_ok least inab inc
      rw [answer_mergeLocal_bind a b fun t => follow t c, answer_mergeLocal_bind b c fun t => follow a t]
      exact eq_of_eq_ok_iff ⟨t, bind_eq_ok.2 ⟨ab, ok, ok'⟩⟩ fun _ =>
        (FlowType.isJoin least antisymm).assoc ina inb inc
    idem := fun a => (answer_mergeLocal a a).trans (FlowType.localBelow_joinsTo.1 (.refl a))
    top := fun a => ⟨(answer_mergeLocal .top a).trans (FlowType.mergeLocal_top a),
      (answer_mergeLocal a .top).trans (FlowType.localBelow_joinsTo.1 (.inl rfl))⟩
    interface := fun a b ⟨ha, founda⟩ ⟨hb, foundb⟩ different some => by
      rw [Hierarchy.isInterface_eq founda, Hierarchy.isInterface_eq foundb] at some
      rw [answer_commonSuperclass, Hierarchy.answer_commonSuperclass different founda foundb,
        if_pos (by simpa using some)]
    nearest := fun a b knowna knownb classes => by
      simp only [answer_superclasses, answer_commonSuperclass]
      exact complete.exists_nearest_common built.isRooted object knowna knownb classes
    frames := fun offset n f f' fs fs' same inside => by
      obtain ⟨D, within⟩ := Frame.exists_within_of_names fun h there => (inside h there).1
      have fits : ∀ h ∈ f :: fs, h.Fits (g.hierarchy l).IsKnown D n :=
        fun h there => ⟨within h there, (inside h there).2⟩
      rw [mergeAll_eq, mergeAll_eq]
      exact ⟨fun t => (Frame.isJoin least antisymm offset).foldlM_congr fits same,
        fun e => Frame.foldlM_merge_eq_error least antisymm fits⟩ }

def holding (n : BinaryName) : Frame := ⟨[.object (.array 1 (.object n))], []⟩

theorem Built.mergesJoin_standard : ClassGraph.standard.Built .empty ∧
    (ClassGraph.standard.hierarchy .empty).IsComplete ∧
    ClassGraph.standard.mergeAll (ClassGraph.standard.source FixedLoader.empty.loader) 0
      (holding .integer) [holding .long, holding .string] = .ok (holding .object) ∧
    ClassGraph.standard.mergeAll (ClassGraph.standard.source FixedLoader.empty.loader) 0
      (holding .string) [holding .integer, holding .long] = .ok (holding .object) := by
  have built : ClassGraph.standard.Built .empty := .standard
  have complete := Hierarchy.isComplete_standard
  have joins := Built.mergesJoin built complete
  have first : ClassGraph.standard.mergeAll (ClassGraph.standard.source FixedLoader.empty.loader) 0
      (holding .integer) [holding .long, holding .string] = .ok (holding .object) := by rfl
  have known : ∀ n ∈ [BinaryName.integer, .long, .string],
      (ClassGraph.standard.hierarchy .empty).IsKnown n := by
    simp only [List.forall_mem_cons]
    exact ⟨⟨_, rfl⟩, ⟨_, rfl⟩, ⟨_, rfl⟩, by simp⟩
  refine ⟨built, complete, first, ?_⟩
  refine ((joins.frames 0 1 _ _ _ _ (fun h => ?_) fun h there => ?_).1 _).1 first
  · simp only [List.mem_cons, List.not_mem_nil, or_false]
    exact or_rotate.symm
  · obtain ⟨n, member, rfl⟩ : ∃ n ∈ [BinaryName.integer, .long, .string], h = holding n := by
      simpa using there
    exact ⟨⟨List.forall_mem_singleton.2 (known n member), by simp [holding]⟩, rfl⟩

end ClassGraph

end StackMaps
