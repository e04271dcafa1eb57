import StackMaps.Proofs.Flow.Lazy
import StackMaps.Proofs.Flow.Run
import StackMaps.Proofs.Frame.Assignable
import StackMaps.Proofs.Hierarchy.Built

/-! An analysis that succeeds finds frames that solve the data flow of the method, whatever classes
there are: links between classes may form circles or lead to classes that are not known. -/

namespace StackMaps

variable {l : FixedLoader} {graph : ClassGraph} {signature : Signature} {code : Code} {pool : Pool}

theorem FlowGraph.IsSolution.imp {le le' : Frame → Frame → Prop} {g : FlowGraph} {initial : Frame}
    {entry : Nat → Option Frame} (imp : ∀ n f f', entry n = some f' → le f f' → le' f f')
    (solution : g.IsSolution le initial entry) : g.IsSolution le' initial entry where
  start := by
    obtain ⟨f, there, below⟩ := solution.start
    exact ⟨f, there, imp _ _ _ there below⟩
  isBlock := solution.isBlock
  passes := solution.passes
  flows start b f block there target out sends := by
    obtain ⟨f', there', below⟩ := solution.flows start b f block there target out sends
    exact ⟨f', there', imp _ _ _ there' below⟩

namespace Analysis

theorem run_eq_ok {a : Analysis} :
    graph.answer (run (graph.source l.loader) signature code pool) = .ok a ↔
      ∃ g st, a.Found (graph.hierarchy l)
        (visitLimit (graph.hierarchy l).source signature code pool) signature code pool g st := by
  rw [ClassGraph.answer_eq (run_lazily (HeaderSource.lazily_source graph) signature code pool)]
  exact ⟨found_of_runWithin, fun ⟨_, _, found⟩ => found.runWithin⟩

theorem found_of_run {a : Analysis}
    (ok : graph.answer (run (graph.source l.loader) signature code pool) = .ok a) :
    ∃ visits g st, a.Found (graph.hierarchy l) visits signature code pool g st :=
  ⟨_, run_eq_ok.1 ok⟩

/-- The frames that an analysis finds, one for each block that control can get to and for no other,
solve the data flow. -/
theorem run_isSolution (built : graph.Built l) {a : Analysis}
    (ok : graph.answer (run (graph.source l.loader) signature code pool) = .ok a) :
    signature.initialFrame code.maxLocals = .ok a.initial ∧
      ∃ g, FlowGraph.ofCode signature code pool = .ok g ∧
        (∀ (n : Nat) b, g.blocks[n]? = some b ↔ b ∈ a.blocks ∧ b.start = n) ∧
        g.IsSolution (Frame.Assignable (graph.hierarchy l)) a.initial (fun n => a.entry[n]?) ∧
        ∀ n : Nat, (∃ f, a.entry[n]? = some f) ↔ g.Reaches n := by
  obtain ⟨visits, g, st, found⟩ := found_of_run ok
  obtain ⟨solution, reached⟩ := found.sound built.isRooted
  refine ⟨found.initial, g, found.ofCode, fun n b => ?_,
    solution.imp fun _ _ _ _ below => below.assignable, reached⟩
  rw [found.graph, found.blocks]
  exact found.holds.getElem?_blocks

/-- A method that drops its first or its second argument, or what is thrown in between. -/
def dropSignature : Signature :=
  ⟨.object, "drop", ⟨[.ref (.object .integer), .ref (.object .double)], none⟩, true⟩

def dropCode : Code :=
  ⟨1, 2, [0x03, 0x99, 0, 7, 0x2a, 0xa7, 0, 4, 0x2b, 0x57, 0xb1], [⟨4, 9, 9, none⟩], []⟩

theorem run_isSolution_drop : ClassGraph.standard.Built .empty ∧ ∃ a : Analysis,
    ClassGraph.standard.answer (run (ClassGraph.standard.source FixedLoader.empty.loader)
      dropSignature dropCode .empty) = .ok a ∧
    ∃ g, FlowGraph.ofCode dropSignature dropCode .empty = .ok g ∧
      g.IsSolution (Frame.Assignable (ClassGraph.standard.hierarchy .empty)) a.initial
        (fun n => a.entry[n]?) := by
  have succeeds : (ClassGraph.standard.answer (run (ClassGraph.standard.source
      FixedLoader.empty.loader) dropSignature dropCode .empty)).toOption.isSome = true := by
    decide +kernel
  obtain ⟨a, ok⟩ := Option.isSome_iff_exists.1 succeeds
  have ok := toOption_eq_some.1 ok
  obtain ⟨_, g, ready, _, solution, _⟩ := run_isSolution .standard ok
  exact ⟨.standard, a, ok, g, ready, solution⟩

end Analysis

end StackMaps
