import StackMaps.Proofs.Rebuild.Graph
import StackMaps.Proofs.Table.Expand

/-! The new table with its objects under construction filled in: they are those that the analysis
found, since the instructions that make them are still where they were. -/

namespace StackMaps

variable {H : Hierarchy} {visits : Nat} {signature : Signature} {code : Code} {pool : Pool}
  {a : Analysis} {g : FlowGraph} {st : FlowState} {r : Rebuilt} {f : Frame} {b : Block}

theorem FlowGraph.carries_ofMade (n : Nat) {Q : NewObject → Prop}
    (made : ∀ (start : Nat) (b : Block) located i r, g.Reaches start → g.blocks[start]? = some b →
      located ∈ b.code → located.instruction = .straight (.new i) → g.context.classType i = .ok r →
      Q ⟨.ofNat located.offset, r⟩) :
    g.Carries H fun f => f.All (FlowType.OfMade Q) ∧ f.locals.length = n where
  step start b located f f' reaches block there holds ok := by
    have ok := FlowGraph.stepAt_eq_ok.1 ok
    refine ⟨Frame.step_keeps (keeps_ofMade Q g.context) ?_ holds.1 ok,
      (Frame.step_near ok).locals.trans holds.2⟩
    intro i r new named object same
    cases same
    exact made start b located i r reaches block there new named
  caught _ _ holds _ := ⟨⟨holds.1.1, List.forall_mem_singleton.2 nofun⟩, holds.2⟩
  merge _ f f' t holds holds' ok := by
    have merges := (Frame.merge_eq_ok (holds.2.trans holds'.2.symm)).1 ok
    exact ⟨merges.below.1.ofMade holds.1, merges.locals.length_merged.trans holds.2⟩

theorem Signature.initialFrame_ofMade {maxLocals : UInt16} {initial : Frame} {Q : NewObject → Prop}
    (ok : signature.initialFrame maxLocals = .ok initial) :
    initial.All (FlowType.OfMade Q) := by
  have entered (t : FlowType) (there : t ∈ signature.entryTypes) : t.OfMade Q := by
    obtain there | there := List.mem_append.1 there
    · split at there
      · cases there
      · rw [List.mem_singleton.1 there, Signature.receiver]
        split <;> exact fun _ same => by cases same
    · obtain ⟨p, _, rfl⟩ := List.mem_map.1 there
      exact FlowType.ofMade_ofField p
  have top : FlowType.OfMade Q .top := fun _ same => by cases same
  rw [Signature.initialFrame_eq ok]
  refine ⟨fun t there => ?_, List.forall_mem_nil _⟩
  obtain there | there := List.mem_append.1 there
  · obtain ⟨value, member, slot⟩ := List.mem_flatMap.1 there
    rw [VerificationType.slots] at slot
    split at slot
    · obtain rfl | rfl := by simpa using slot
      · exact entered t member
      · exact top
    · rw [List.mem_singleton.1 slot]
      exact entered value member
  · rw [List.eq_of_mem_replicate there]
    exact top

namespace Analysis.Found

theorem find?_buriedCode (found : a.Found H visits signature code pool g st) {l : Located}
    (there : l ∈ a.buriedCode) : a.buriedCode.find? (·.offset = l.offset) = some l := by
  cases first : a.buriedCode.find? (·.offset = l.offset) with
  | none =>
    have differs := List.find?_eq_none.1 first l there
    simp at differs
  | some l' =>
    have same : l'.offset = l.offset := by simpa using List.find?_some first
    rw [found.explored.buried_holds.decodes.offset_injective (List.mem_of_find?_eq_some first) there same]

theorem made (found : a.Found H visits signature code pool g st) (rooted : H.IsRooted)
    (short : code.bytes.length ≤ 65535) (extends_ : r.pool.Extends pool) {n : Nat}
    (there : a.entry[n]? = some f) :
    f.All (FlowType.OfMade fun made => made? r.pool a.buriedCode made.offset = some made) := by
  have carries : g.Carries H fun f =>
      f.All (FlowType.OfMade fun made => made? r.pool a.buriedCode made.offset = some made) ∧
        f.locals.length = code.maxLocals.toNat := by
    refine FlowGraph.carries_ofMade _ fun start b l i type reaches block there new named => ?_
    obtain ⟨f, entry⟩ := ((found.sound rooted).2 start).2 reaches
    rw [found.graph, found.holds.getElem?_blocks, ← found.blocks] at block
    obtain ⟨block, rfl⟩ := block
    have kept := live_mem_buriedCode block entry there
    have bounds := found.holds.decodes.bounds (found.explored.bounds block there).1
    have offset : (UInt16.ofNat l.offset).toNat = l.offset :=
      UInt16.toNat_ofNat_of_lt' (by simp only [UInt16.size]; omega)
    have named : r.pool.classType i = .ok type := by
      rw [found.graph] at named
      exact extends_.classType (mapError_eq_ok.1 named)
    simp only [made?, offset, found.find?_buriedCode kept, new, named, Option.bind_eq_bind,
      Option.bind_some]
    rfl
  have carried := FlowGraph.settle_carries (FlowGraph.isClosed_of_ofCode found.ofCode) carries
    ⟨Signature.initialFrame_ofMade found.initial, (Signature.length_initialFrame found.initial).1⟩
    found.settled
  rw [found.entry] at there
  exact (carried n f there).1.1

theorem expandTable (found : a.Found H visits signature code pool g st) (rooted : H.IsRooted)
    (short : code.bytes.length ≤ 65535) (built : pool.Built)
    (written : a.Written signature code pool r) :
    r.expandTable signature a.buriedCode =
      some (a.frames.map fun (offset, f) => (offset, f.pad code.maxLocals.toNat)) := by
  have known (p : Nat × Frame) (there : p ∈ a.frames) :
      (p.2.read code.maxLocals.toNat).expand r.pool a.buriedCode =
        some (p.2.pad code.maxLocals.toNat) := by
    refine Frame.expand_read ?_
    obtain ⟨b, _, _, ⟨entry, _⟩ | ⟨_, dead⟩⟩ := mem_frames.1 there
    · exact found.made rooted short (written.grows.extends built) entry
    · rw [dead]
      exact ⟨nofun, List.forall_mem_singleton.2 nofun⟩
  unfold Rebuilt.expandTable
  rw [written.count]
  split
  next none =>
    rw [List.length_eq_zero_iff.1 none]
    rfl
  next some =>
    rw [written.table fun none => some (List.length_eq_zero_iff.2 none)]
    simp only [Option.bind_eq_bind, Option.bind_some]
    generalize a.frames = frames at known
    induction frames with
    | nil => rfl
    | cons p frames ih =>
      obtain ⟨first, rest⟩ := List.forall_mem_cons.1 known
      rw [List.map_cons, List.mapM_cons, ih rest, first]
      rfl

end Analysis.Found

end StackMaps
