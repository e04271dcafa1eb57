import StackMaps.Proofs.Hierarchy.Superclass

/-! The search for a class above another one finds what the links that it follows lead to, however they
run. What it has seen when it gives up is closed under these links, so that a class it did not see is
not above the one it started from. -/

namespace StackMaps.Hierarchy

variable {H : Hierarchy}

/-- A search gets from `c` to `d` in one step: to the superclass, or to an interface if it goes to
interfaces. -/
def Climbs (H : Hierarchy) (withInterfaces : Bool) (c d : BinaryName) : Prop :=
  ∃ h, H.find c = some h ∧ d ∈ h.parents withInterfaces

theorem Climbs.isKnown {withInterfaces : Bool} {c d : BinaryName} (link : H.Climbs withInterfaces c d) :
    H.IsKnown c := by
  obtain ⟨h, found, _⟩ := link
  exact ⟨h, found⟩

theorem Extends.climbs {withInterfaces : Bool} {c d : BinaryName} (link : H.Extends c d) :
    H.Climbs withInterfaces c d := by
  obtain ⟨h, found, up⟩ := link
  exact ⟨h, found, List.mem_append_left _ (by simp [up])⟩

theorem nextStep_cons {wanted n : BinaryName} {rest : List BinaryName} :
    H.source.nextStep wanted (n :: rest) =
      if n = wanted then (.hit : SearchStep)
      else
        match H.find n with
        | some h => .expand h rest
        | none => H.source.nextStep wanted rest := by
  rw [HeaderSource.nextStep]
  split
  · rfl
  · simp only [source]
    cases H.find n <;> rfl

theorem nextStep_eq {wanted : BinaryName} {pending : List BinaryName} :
    (H.source.nextStep wanted pending = SearchStep.hit ∧ wanted ∈ pending) ∨
    (H.source.nextStep wanted pending = SearchStep.exhausted ∧
      ∀ n ∈ pending, n ≠ wanted ∧ ¬ H.IsKnown n) ∨
    ∃ passed n h rest, H.source.nextStep wanted pending = SearchStep.expand h rest ∧
      pending = passed ++ n :: rest ∧ H.find n = some h ∧ n ≠ wanted ∧
      ∀ p ∈ passed, p ≠ wanted ∧ ¬ H.IsKnown p := by
  induction pending with
  | nil => exact .inr (.inl ⟨rfl, by simp⟩)
  | cons n pending ih =>
    rw [nextStep_cons]
    by_cases hit : n = wanted
    · exact .inl ⟨if_pos hit, by simp [hit]⟩
    · rw [if_neg hit]
      cases found : H.find n with
      | some h => exact .inr (.inr ⟨[], n, h, pending, rfl, rfl, found, hit, by simp⟩)
      | none =>
        have unknown : ¬ H.IsKnown n := fun ⟨h, known⟩ => by
          rw [found] at known
          cases known
        obtain ⟨same, there⟩ | ⟨same, all⟩ | ⟨passed, m, h, rest, same, split, known, miss, all⟩ := ih
        · exact .inl ⟨same, List.mem_cons_of_mem n there⟩
        · exact .inr (.inl ⟨same, List.forall_mem_cons.2 ⟨⟨hit, unknown⟩, all⟩⟩)
        · exact .inr (.inr ⟨n :: passed, m, h, rest, same, by rw [split]; rfl, known, miss,
            List.forall_mem_cons.2 ⟨⟨hit, unknown⟩, all⟩⟩)

theorem enqueue_cons {p : BinaryName} {parents seen pending : List BinaryName} :
    HeaderSource.enqueue (p :: parents) seen pending =
      if p ∈ seen then HeaderSource.enqueue parents seen pending
      else HeaderSource.enqueue parents (p :: seen) (p :: pending) := by
  simp only [HeaderSource.enqueue, List.foldl_cons]
  split <;> rfl

theorem mem_of_enqueue (parents : List BinaryName) {seen pending : List BinaryName} {n : BinaryName}
    (member : n ∈ (HeaderSource.enqueue parents seen pending).2) : n ∈ pending ∨ n ∈ parents := by
  induction parents generalizing seen pending with
  | nil => exact .inl member
  | cons p parents ih =>
    rw [enqueue_cons] at member
    split at member
    · exact (ih member).imp_right (List.mem_cons_of_mem p)
    · obtain pending | parent := ih member
      · obtain rfl | pending := List.mem_cons.1 pending
        · exact .inr List.mem_cons_self
        · exact .inl pending
      · exact .inr (List.mem_cons_of_mem p parent)

theorem enqueue_spec (parents : List BinaryName) {seen pending : List BinaryName}
    (nodup : pending.Nodup) (within : pending ⊆ seen) :
    let (seen', pending') := HeaderSource.enqueue parents seen pending
    seen ⊆ seen' ∧ parents ⊆ seen' ∧ pending ⊆ pending' ∧ pending' ⊆ seen' ∧ pending'.Nodup ∧
      (∀ n ∈ seen', n ∈ seen ∨ n ∈ pending') ∧ ∀ n ∈ pending', n ∈ pending ∨ n ∉ seen := by
  induction parents generalizing seen pending with
  | nil =>
    exact ⟨fun _ => id, List.nil_subset _, fun _ => id, within, nodup, fun _ => .inl, fun _ => .inl⟩
  | cons p parents ih =>
    rw [enqueue_cons]
    by_cases old : p ∈ seen
    · rw [if_pos old]
      obtain ⟨grows, all, kept, inside, nodup, new, fresh⟩ := ih nodup within
      exact ⟨grows, List.cons_subset.2 ⟨grows old, all⟩, kept, inside, nodup, new, fresh⟩
    · rw [if_neg old]
      obtain ⟨grows, all, kept, inside, nodup, new, fresh⟩ := ih
        (List.nodup_cons.2 ⟨fun member => old (within member), nodup⟩)
        (List.cons_subset.2 ⟨List.mem_cons_self, List.subset_cons_of_subset p within⟩)
      obtain ⟨seesp, grows⟩ := List.cons_subset.1 grows
      obtain ⟨hasp, kept⟩ := List.cons_subset.1 kept
      refine ⟨grows, List.cons_subset.2 ⟨seesp, all⟩, kept, inside, nodup, fun n member => ?_,
        fun n member => ?_⟩
      · obtain old | pending := new n member
        · obtain rfl | old := List.mem_cons.1 old
          · exact .inr hasp
          · exact .inl old
        · exact .inr pending
      · obtain pending | new := fresh n member
        · obtain rfl | pending := List.mem_cons.1 pending
          · exact .inr old
          · exact .inl pending
        · exact .inr fun h => new (List.mem_cons_of_mem p h)

/-- What is seen and not pending was taken, or is not known; `taken` are the classes whose headers
were looked into. -/
structure Searching (H : Hierarchy) (wanted : BinaryName) (withInterfaces : Bool)
    (taken seen pending : List BinaryName) : Prop where
  nodup : pending.Nodup
  within : pending ⊆ seen
  taken_nodup : taken.Nodup
  taken_known : ∀ n ∈ taken, H.IsKnown n
  taken_seen : taken ⊆ seen
  apart : ∀ n ∈ taken, n ∉ pending
  done : ∀ n ∈ seen, n ∉ pending → n ≠ wanted ∧ ∀ d, H.Climbs withInterfaces n d → d ∈ seen

theorem searching_start (wanted : BinaryName) (withInterfaces : Bool) (c : BinaryName) :
    H.Searching wanted withInterfaces [] [c] [c] :=
  ⟨by simp, by simp, by simp, by simp, by simp, by simp, by simp⟩

theorem searchFrom_succ {wanted : BinaryName} {withInterfaces : Bool} {fuel : Nat}
    {seen pending : List BinaryName} :
    H.source.searchFrom wanted withInterfaces (fuel + 1) seen pending =
      match (H.source.nextStep wanted pending : SearchStep) with
      | .exhausted => false
      | .hit => true
      | .expand h rest =>
        let (seen, pending) := HeaderSource.enqueue (h.parents withInterfaces) seen rest
        H.source.searchFrom wanted withInterfaces fuel seen pending := by
  rw [HeaderSource.searchFrom]
  rfl

theorem Searching.expand {wanted n : BinaryName} {h : ClassHeader} {withInterfaces : Bool}
    {taken seen passed rest : List BinaryName}
    (searching : H.Searching wanted withInterfaces taken seen (passed ++ n :: rest))
    (found : H.find n = some h) (miss : n ≠ wanted)
    (unknown : ∀ p ∈ passed, p ≠ wanted ∧ ¬ H.IsKnown p) :
    let (seen', pending') := HeaderSource.enqueue (h.parents withInterfaces) seen rest
    seen ⊆ seen' ∧ H.Searching wanted withInterfaces (n :: taken) seen' pending' := by
  have nodup := searching.nodup
  rw [List.nodup_append] at nodup
  obtain ⟨_, nodup, _⟩ := nodup
  obtain ⟨new, nodup⟩ := List.nodup_cons.1 nodup
  have within : rest ⊆ seen := fun m member => searching.within (by simp [member])
  have here : n ∈ seen := searching.within (by simp)
  obtain ⟨grows, all, kept, inside, nodup', arrived, fresh⟩ :=
    enqueue_spec (h.parents withInterfaces) nodup within
  refine ⟨grows, nodup', inside, ?_, ?_, ?_, ?_, ?_⟩
  · exact List.nodup_cons.2 ⟨fun again => searching.apart n again (by simp), searching.taken_nodup⟩
  · exact List.forall_mem_cons.2 ⟨⟨h, found⟩, searching.taken_known⟩
  · exact List.cons_subset.2 ⟨grows here, fun m member => grows (searching.taken_seen member)⟩
  · refine List.forall_mem_cons.2 ⟨fun member => ?_, fun m member pending => ?_⟩
    · exact (fresh n member).elim new fun unseen => unseen here
    · exact (fresh m pending).elim
        (fun old => searching.apart m member (by simp [old]))
        (fun unseen => unseen (searching.taken_seen member))
  · intro m member away
    have old := (arrived m member).resolve_right away
    by_cases waiting : m ∈ passed ++ n :: rest
    · obtain skipped | waiting := List.mem_append.1 waiting
      · exact ⟨(unknown m skipped).1, fun d link => absurd link.isKnown (unknown m skipped).2⟩
      · obtain rfl | waiting := List.mem_cons.1 waiting
        · refine ⟨miss, fun d ⟨h', found', link⟩ => all ?_⟩
          rw [found] at found'
          cases found'
          exact link
        · exact absurd (kept waiting) away
    · obtain ⟨miss, above⟩ := searching.done m old waiting
      exact ⟨miss, fun d link => grows (above d link)⟩

/-- A search that fails has seen a set of classes that the links do not lead out of. -/
theorem searchFrom_false {wanted : BinaryName} {withInterfaces : Bool} {fuel : Nat}
    {taken seen pending : List BinaryName}
    (failed : H.source.searchFrom wanted withInterfaces fuel seen pending = false)
    (searching : H.Searching wanted withInterfaces taken seen pending)
    (enough : taken.length + fuel = H.bound + 1) :
    ∃ closed : List BinaryName, seen ⊆ closed ∧ wanted ∉ closed ∧
      ∀ n ∈ closed, ∀ d, H.Climbs withInterfaces n d → d ∈ closed := by
  induction fuel generalizing taken seen pending with
  | zero =>
    have := length_le_bound searching.taken_nodup searching.taken_known
    omega
  | succ fuel ih =>
    rw [searchFrom_succ] at failed
    obtain ⟨step, _⟩ | ⟨step, unknown⟩ | ⟨passed, n, h, rest, step, rfl, found, miss, unknown⟩ :=
      @nextStep_eq H wanted pending
    · rw [step] at failed
      cases failed
    · refine ⟨seen, fun _ => id, fun member => ?_, fun n member d link => ?_⟩
      · by_cases waiting : wanted ∈ pending
        · exact (unknown wanted waiting).1 rfl
        · exact (searching.done wanted member waiting).1 rfl
      · by_cases waiting : n ∈ pending
        · exact absurd link.isKnown (unknown n waiting).2
        · exact (searching.done n member waiting).2 d link
    · rw [step] at failed
      obtain ⟨grows, searching⟩ := searching.expand found miss unknown
      obtain ⟨closed, within, away, up⟩ := ih failed searching (by simp only [List.length_cons]; omega)
      exact ⟨closed, fun m member => within (grows member), away, up⟩

/-- A search that succeeds has the wanted class above one of the pending ones. -/
theorem searchFrom_true {wanted : BinaryName} {withInterfaces : Bool} {fuel : Nat}
    {seen pending : List BinaryName}
    (succeeded : H.source.searchFrom wanted withInterfaces fuel seen pending = true) :
    ∃ n ∈ pending, Relation.ReflTransGen (H.Climbs withInterfaces) n wanted := by
  induction fuel generalizing seen pending with
  | zero => cases succeeded
  | succ fuel ih =>
    rw [searchFrom_succ] at succeeded
    obtain ⟨step, there⟩ | ⟨step, _⟩ | ⟨passed, n, h, rest, step, rfl, found, _⟩ :=
      @nextStep_eq H wanted pending
    · exact ⟨wanted, there, .refl⟩
    · rw [step] at succeeded
      cases succeeded
    · rw [step] at succeeded
      obtain ⟨m, member, up⟩ := ih succeeded
      obtain old | parent := mem_of_enqueue _ member
      · exact ⟨m, by simp [old], up⟩
      · exact ⟨n, by simp, .head ⟨h, found, parent⟩ up⟩

/-- The search decides what its links lead to. It goes to interfaces where it looks for one. -/
theorem isSubclass_iff {c d : BinaryName} : H.isSubclass c d = true ↔
    d = .object ∨ Relation.ReflTransGen (H.Climbs (H.isInterface d)) c d := by
  by_cases start : c = d ∨ d = .object
  · have yes : H.isSubclass c d = true := if_pos start
    simp only [yes, true_iff]
    obtain rfl | top := start
    · exact .inr .refl
    · exact .inl top
  · have search : H.isSubclass c d =
        H.source.searchFrom d (H.isInterface d) (H.bound + 1) [c] [c] := if_neg start
    rw [search]
    constructor
    · intro succeeded
      obtain ⟨n, member, up⟩ := searchFrom_true succeeded
      rw [List.mem_singleton.1 member] at up
      exact .inr up
    · intro up
      have up := up.resolve_left fun top => start (.inr top)
      by_contra failed
      rw [Bool.not_eq_true] at failed
      obtain ⟨closed, within, away, closure⟩ :=
        searchFrom_false failed (searching_start d _ c) (Nat.zero_add _)
      have reached : ∀ m, Relation.ReflTransGen (H.Climbs (H.isInterface d)) c m → m ∈ closed := by
        intro m up
        induction up with
        | refl => exact within (by simp)
        | tail _ link ih => exact closure _ ih _ link
      exact away (reached d up)

theorem isSubclass_of_under {c d : BinaryName} (up : H.Under c d) : H.isSubclass c d = true :=
  isSubclass_iff.2 (up.imp_right (Relation.ReflTransGen.mono (fun _ _ => Extends.climbs) c d))

end StackMaps.Hierarchy
