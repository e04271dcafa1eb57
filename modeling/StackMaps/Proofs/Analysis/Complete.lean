import StackMaps.Proofs.Analysis.Sound
import StackMaps.Proofs.Flow.Progress
import StackMaps.Proofs.Flow.Termination

/-! Where all classes are known and lead up to `java/lang/Object`, an analysis fails only for a method
whose data flow has no solution; otherwise it finds the least one. -/

namespace StackMaps

variable {l : FixedLoader} {graph : ClassGraph} {signature : Signature} {code : Code} {pool : Pool}
  {H : Hierarchy} {g : FlowGraph} {initial : Frame} {entry : Nat → Option Frame}

namespace Analysis

theorem exists_found {visits : Nat} {st : FlowState}
    (ok : FlowGraph.ofCode signature code pool = .ok g)
    (entered : signature.initialFrame code.maxLocals = .ok initial)
    (settled : answer (g.settle H.source visits (.entering initial)) = .ok (some st)) :
    ∃ a : Analysis, a.Found H visits signature code pool g st ∧ a.initial = initial := by
  obtain ⟨located, clauses, holds, caught, rfl⟩ := FlowGraph.ofCode_eq_ok.1 ok
  exact ⟨⟨located, code.blocks located, st.entry,
    Block.frameTargets located code.handlers code.bytes.length, initial, st.maxStack⟩,
    ⟨holds, caught, rfl, entered, settled, rfl, rfl, rfl, rfl⟩, rfl⟩

/-- If the data flow has a solution the analysis succeeds. What it finds, for the blocks that control
can get to and for no other, is a solution itself, and below the other one. -/
theorem run_complete (built : graph.Built l) (complete : (graph.hierarchy l).IsComplete)
    (names : signature.Names (graph.hierarchy l).IsKnown pool)
    (ok : FlowGraph.ofCode signature code pool = .ok g)
    (entered : signature.initialFrame code.maxLocals = .ok initial)
    (solution : g.IsSolution (Frame.MergesInto (graph.hierarchy l)) initial entry) :
    ∃ a, graph.answer (run (graph.source l.loader) signature code pool) = .ok a ∧
      g.IsSolution (Frame.MergesInto (graph.hierarchy l)) initial (fun n => a.entry[n]?) ∧
      (∀ n : Nat, (∃ f, a.entry[n]? = some f) ↔ g.Reaches n) ∧
      ∀ (n : Nat) (f : Frame), a.entry[n]? = some f →
        ∃ f', entry n = some f' ∧ f.MergesInto (graph.hierarchy l) f' := by
  have rooted := built.isRooted
  have object : (graph.hierarchy l).IsKnown .object := ⟨_, built.find_standard rfl⟩
  have least := complete.isLeast rooted object
  obtain ⟨length, empty⟩ := Signature.length_initialFrame entered
  obtain ⟨D, enough⟩ : ∃ D, signature.descriptor.chars.length + pool.longestText < D :=
    ⟨_, Nat.lt_succ_self _⟩
  have preserves := (names.preserves (D := D) (by omega) ok).and
    (g.preserves_length code.maxLocals.toNat)
  have fits : initial.Fits (graph.hierarchy l).IsKnown D code.maxLocals.toNat :=
    ⟨names.initialFrame (by omega) entered, length⟩
  have usable : g.IsSolution (Frame.UsablyBelow (graph.hierarchy l).JoinsTo) initial entry :=
    solution.imp fun _ _ _ _ => Frame.mergesInto_iff.1
  have beneath : FlowState.AllBeneath (graph.hierarchy l).IsKnown (graph.hierarchy l).JoinsTo D
      code.maxLocals.toNat entry (.entering initial) := by
    intro n f there
    rw [FlowState.getElem?_entering] at there
    split at there
    next here =>
      cases there
      rw [here]
      exact ⟨fits, usable.start⟩
    next => cases there
  rw [ClassGraph.answer_eq (run_lazily (HeaderSource.lazily_source graph) signature code pool)]
  obtain none | ⟨st, settled, all⟩ := FlowGraph.settle_progress least preserves usable
    (visitLimit (graph.hierarchy l).source signature code pool) beneath
  · exact absurd none (FlowGraph.settle_ne_none_of_apart rooted (fun _ _ => complete.apart rooted)
      ok entered (Nat.le_add_right _ _))
  · obtain ⟨a, found, rfl⟩ := exists_found ok entered settled
    obtain ⟨solves, reached⟩ :=
      found.solves (least.toIsUpper.joins D code.maxLocals.toNat) preserves.keeps fits
    have below (n : Nat) (f : Frame) (there : a.entry[n]? = some f) :
        ∃ f', entry n = some f' ∧ f.Below (graph.hierarchy l).JoinsTo f' ∧ .top ∉ f'.stack := by
      rw [found.entry] at there
      exact (all n f there).below
    refine ⟨a, found.runWithin, solves.imp fun n f f' there under => ?_, reached, fun n f there => ?_⟩
    · obtain ⟨_, _, above, clean⟩ := below n f' there
      exact Frame.mergesInto_iff.2 ⟨under, FlowType.top_notMem_of_below above.stack clean⟩
    · obtain ⟨f', solved, merges⟩ := below n f there
      exact ⟨f', solved, Frame.mergesInto_iff.2 merges⟩

/-- A method that goes on copying its second argument over the first one, until that throws. -/
def swingSignature : Signature :=
  ⟨.object, "swing", ⟨[.ref (.object .integer), .ref (.object .double)], none⟩, true⟩

def swingCode : Code := ⟨1, 2, [0x2b, 0x4b, 0xa7, 0xff, 0xfe, 0xbf], [⟨0, 2, 5, none⟩], []⟩

def swingLoop : Block :=
  ⟨0, 5, 0, [⟨0, 1, .straight (.load .reference 1)⟩, ⟨1, 2, .straight (.store .reference 0)⟩,
    ⟨2, 5, .branch (.goto 0)⟩]⟩

def swingCatch : Block := ⟨5, 6, 3, [⟨5, 6, .branch .throw⟩]⟩

def swingClause : CatchClause := ⟨0, 2, 5, .object .throwable⟩

def swingGraph : FlowGraph :=
  .ofInstructions swingSignature swingCode .empty (swingLoop.code ++ swingCatch.code) [swingClause]

def swingFrame (first : FlowType) (stack : List FlowType) : Frame :=
  ⟨[first, .object (.object .double)], stack⟩

def swingInitial : Frame := swingFrame (.object (.object .integer)) []

/-- Frames that are higher than they have to be. -/
def swingEntry (n : Nat) : Option Frame :=
  if n = 0 then some (swingFrame (.object (.object .object)) [])
  else if n = 5 then some (swingFrame .top [.object (.object .throwable)])
  else none

theorem swingCode_instructions : swingCode.instructions = .ok (swingLoop.code ++ swingCatch.code) := by
  decide +kernel

theorem ofCode_swing : FlowGraph.ofCode swingSignature swingCode .empty = .ok swingGraph := by
  rw [FlowGraph.ofCode, swingCode_instructions]
  rfl

theorem getElem?_swing {n : Nat} {b : Block} :
    swingGraph.blocks[n]? = some b ↔ b = swingLoop ∧ n = 0 ∨ b = swingCatch ∧ n = 5 := by
  have holds : swingCode.Holds (swingLoop.code ++ swingCatch.code) :=
    Code.instructions_eq_ok.1 swingCode_instructions
  have blocks : swingCode.blocks (swingLoop.code ++ swingCatch.code) = [swingLoop, swingCatch] := by
    decide +kernel
  rw [swingGraph, holds.getElem?_blocks, blocks, List.mem_pair]
  constructor
  · rintro ⟨rfl | rfl, rfl⟩
    · exact .inl ⟨rfl, rfl⟩
    · exact .inr ⟨rfl, rfl⟩
  · rintro (⟨rfl, rfl⟩ | ⟨rfl, rfl⟩)
    · exact ⟨.inl rfl, rfl⟩
    · exact ⟨.inr rfl, rfl⟩

theorem swingEntry_eq_some {n : Nat} {f : Frame} (there : swingEntry n = some f) :
    n = 0 ∧ f = swingFrame (.object (.object .object)) [] ∨
      n = 5 ∧ f = swingFrame .top [.object (.object .throwable)] := by
  unfold swingEntry at there
  split at there
  next first =>
    cases there
    exact .inl ⟨first, rfl⟩
  next =>
    split at there
    next caught =>
      cases there
      exact .inr ⟨caught, rfl⟩
    next => cases there

theorem swingLoop_flows {target : Nat} {out : Frame}
    (sends : swingGraph.Sends swingLoop (swingFrame (.object (.object .object)) []) target out) :
    ∃ f, swingEntry target = some f ∧
      out.MergesInto (ClassGraph.standard.hierarchy .empty) f := by
  have caught {c : CatchClause} (clause : c ∈ swingGraph.clauses) (first : FlowType) :
      ∃ f, swingEntry c.target = some f ∧ (Frame.atHandler [first, .object (.object .double)]
        c.type).MergesInto (ClassGraph.standard.hierarchy .empty) f := by
    cases List.mem_singleton.1 clause
    exact ⟨_, rfl, .cons (FlowType.localBelow_joinsTo.1 (.inl rfl)) (.cons rfl .nil), .cons rfl .nil,
      by simp [swingFrame]⟩
  cases sends with
  | leaves passes member =>
    obtain ⟨follow, last, last?, successors⟩ := passes
    cases follow
    cases last?
    cases successors
    cases List.mem_singleton.1 member
    exact ⟨_, rfl, .cons rfl (.cons rfl .nil), .nil, by simp [swingFrame]⟩
  | raises raises =>
    -- Nothing covers the jump, so that only the copy can throw.
    cases raises with
    | before step clause _ => exact caught clause _
    | after step clause _ =>
      cases step
      exact caught clause _
    | later step raises =>
      cases step
      cases raises with
      | before step clause _ => exact caught clause _
      | after step clause _ =>
        cases step
        exact caught clause _
      | later step raises =>
        cases step
        obtain ⟨located, there, c, clause, covers, _⟩ := raises.exists_clause
        cases List.mem_singleton.1 there
        cases List.mem_singleton.1 clause
        cases covers

theorem isSolution_swing : swingGraph.IsSolution
    (Frame.MergesInto (ClassGraph.standard.hierarchy .empty)) swingInitial swingEntry where
  start := ⟨_, rfl, .cons rfl (.cons rfl .nil), .nil, by simp [swingFrame]⟩
  isBlock n f there := by
    obtain ⟨rfl, _⟩ | ⟨rfl, _⟩ := swingEntry_eq_some there
    · exact ⟨swingLoop, getElem?_swing.2 (.inl ⟨rfl, rfl⟩)⟩
    · exact ⟨swingCatch, getElem?_swing.2 (.inr ⟨rfl, rfl⟩)⟩
  passes n b f block there := by
    obtain ⟨rfl, rfl⟩ | ⟨rfl, rfl⟩ := getElem?_swing.1 block
    · cases there
      exact ⟨_, [0], rfl, _, rfl, rfl⟩
    · cases there
      exact ⟨_, [], rfl, _, rfl, rfl⟩
  flows n b f block there target out sends := by
    obtain ⟨rfl, rfl⟩ | ⟨rfl, rfl⟩ := getElem?_swing.1 block
    · cases there
      exact swingLoop_flows sends
    · cases sends with
      | leaves passes member =>
        obtain ⟨_, last, last?, successors⟩ := passes
        cases last?
        cases successors
        cases member
      | raises raises =>
        obtain ⟨located, member, c, clause, covers, _⟩ := raises.exists_clause
        cases List.mem_singleton.1 member
        cases List.mem_singleton.1 clause
        cases covers

theorem names_swing : swingSignature.Names (ClassGraph.standard.hierarchy .empty).IsKnown .empty where
  owner := ⟨_, rfl⟩
  parameters t member := by
    obtain rfl | rfl := List.mem_pair.1 member
    · exact ⟨_, rfl⟩
    · exact ⟨_, rfl⟩
  constants t mentions := by
    have empty : ∀ i, Pool.get? .empty i = none := fun _ => rfl
    cases mentions with
    | constant ok => cases ok
    | cls ok => cases ok
    | field ok => cases ok
    | method ok => cases ok
    | callSite ok => cases ok
  throwable := ⟨_, rfl⟩

/-- The loop merges the classes of both arguments, and the handler does not lose what it finds. -/
theorem run_complete_swing : ClassGraph.standard.Built .empty ∧
    (ClassGraph.standard.hierarchy .empty).IsComplete ∧
    swingGraph.IsSolution (Frame.MergesInto (ClassGraph.standard.hierarchy .empty)) swingInitial
      swingEntry ∧
    ∃ a, ClassGraph.standard.answer (run (ClassGraph.standard.source FixedLoader.empty.loader)
        swingSignature swingCode .empty) = .ok a ∧
      swingGraph.IsSolution (Frame.MergesInto (ClassGraph.standard.hierarchy .empty)) swingInitial
        (fun n => a.entry[n]?) ∧
      a.entry.toList = [(0, swingFrame (.object (.object .number)) []),
        (5, swingFrame (.object (.object .number)) [.object (.object .throwable)])] := by
  have entry : (ClassGraph.standard.answer (run (ClassGraph.standard.source FixedLoader.empty.loader)
      swingSignature swingCode .empty)).toOption.map (·.entry.toList) =
        some [(0, swingFrame (.object (.object .number)) []),
          (5, swingFrame (.object (.object .number)) [.object (.object .throwable)])] := by
    decide +kernel
  obtain ⟨a, ok, solution, _⟩ :=
    run_complete .standard Hierarchy.isComplete_standard names_swing ofCode_swing rfl isSolution_swing
  rw [ok] at entry
  exact ⟨.standard, Hierarchy.isComplete_standard, isSolution_swing, a, ok, solution,
    Option.some.inj entry⟩

end Analysis

end StackMaps
