import StackMaps.Proofs.Flow.Run
import StackMaps.Proofs.Frame.Mentions

/-! The types that come up in the analysis of a method: their classes are named by the method, and
there is a bound for their dimensions. -/

namespace StackMaps

variable {K : BinaryName → Prop} {D : Nat} {signature : Signature} {code : Code} {pool : Pool}
  {g : FlowGraph}

def Signature.context (s : Signature) (pool : Pool) : MethodContext :=
  ⟨pool, .object s.owner, s.descriptor.result⟩

structure Signature.Names (K : BinaryName → Prop) (s : Signature) (pool : Pool) : Prop where
  owner : K s.owner
  parameters : ∀ t ∈ s.descriptor.parameters, t.Names K
  constants : ∀ t, (s.context pool).Mentions t → t.Names K
  throwable : K .throwable

theorem Signature.Names.initialFrame (names : signature.Names K pool)
    (enough : signature.descriptor.chars.length ≤ D) {maxLocals : UInt16} {initial : Frame}
    (ok : signature.initialFrame maxLocals = .ok initial) : initial.Within K D := by
  have slots : ∀ t ∈ signature.entrySlots, t.Within K D := by
    intro t member
    rw [Signature.entrySlots, List.mem_append] at member
    obtain receiver | parameter := member
    · split at receiver
      next => cases receiver
      next =>
        cases List.mem_singleton.1 receiver
        unfold Signature.receiver
        split
        · trivial
        · exact names.owner
    · obtain ⟨p, there, member⟩ := List.mem_flatMap.1 parameter
      have within : FlowType.Within K D (.ofField p) :=
        FlowType.within_ofField (names.parameters p there)
          (Nat.le_trans (MethodDescriptor.dimensions_le (.inl there)) enough)
      unfold Signature.slotsOf at member
      split at member
      · obtain rfl | rfl := by simpa using member
        · exact within
        · trivial
      · cases List.mem_singleton.1 member
        exact within
  obtain ⟨_, rfl⟩ := Signature.initialFrame_eq_ok.1 ok
  refine ⟨fun t member => ?_, by simp⟩
  obtain member | member := List.mem_append.1 member
  · exact slots t member
  · cases List.eq_of_mem_replicate member
    trivial

theorem Signature.Names.clause (names : signature.Names K pool) (enough : pool.longestText ≤ D)
    {h : Handler} {c : CatchClause} (ok : h.clause pool = .ok c) : c.type.Within K D := by
  obtain ⟨r, caught, same⟩ := bind_eq_ok.1 ok
  cases same
  unfold Handler.caught at caught
  split at caught
  next =>
    cases caught
    exact names.throwable
  next i _ =>
    have mentions : (signature.context pool).Mentions (.ref r) := .cls (i := i) (mapError_eq_ok.2 caught)
    exact RefType.within_iff.2
      ⟨names.constants _ mentions, Nat.le_trans mentions.dimensions_le enough⟩

theorem Signature.Names.preserves (names : signature.Names K pool) (enough : pool.longestText < D)
    (ok : FlowGraph.ofCode signature code pool = .ok g) : g.Preserves fun f => f.Within K D := by
  obtain ⟨located, clauses, _, caught, rfl⟩ := FlowGraph.ofCode_eq_ok.1 ok
  have keeps : StackMaps.Keeps (FlowType.Within K D) (signature.context pool) :=
    keeps_within names.constants names.owner enough
  have made : ∀ k r, (signature.context pool).classType k = .ok r → r.Within K D :=
    fun k r ok => (keeps.classType k r ok).1
  constructor
  · intro _ _ located f f' _ _ within ok
    have ok := FlowGraph.stepAt_eq_ok.1 ok
    exact Frame.step_keeps keeps (fun k r _ ok => made k r ok) within ok
  · intro f c within member
    obtain ⟨h, _, made⟩ := mem_of_mapM_eq_ok caught member
    exact ⟨within.1, List.forall_mem_singleton.2 (names.clause (Nat.le_of_lt enough) made)⟩

end StackMaps
