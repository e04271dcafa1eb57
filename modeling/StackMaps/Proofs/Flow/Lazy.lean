import StackMaps.Flow.Analysis
import StackMaps.Proofs.Frame.FrameMerge
import StackMaps.Proofs.Hierarchy.Lazy

/-! An analysis that loads classes when they are needed finds what it would find if all classes had
been known from the start. -/

namespace StackMaps

open HeaderSource

variable {l : FixedLoader} {H : Hierarchy} {s : HeaderSource (StateT ClassGraph Id)}

theorem RefType.mergeArrays_lazily (lazily : Lazily l H s) (a b : ElementType) (i j : Nat) :
    Follow l H (mergeArrays s a b i j) (mergeArrays H.source a b i j) := by
  induction i generalizing j with
  | zero =>
    cases j with
    | zero =>
      unfold mergeArrays
      cases a <;> cases b
      case object.object a b => exact .bind (commonSuperclass_lazily lazily a b) fun _ => .pure _
      all_goals exact .pure _
    | succ j => cases a <;> exact .pure _
  | succ i ih =>
    cases j with
    | zero => cases b <;> exact .pure _
    | succ j => exact .bind (ih j) fun _ => .pure _

theorem RefType.merge_lazily (lazily : Lazily l H s) (a b : RefType) :
    Follow l H (merge s a b) (merge H.source a b) := by
  refine .ite (fun _ => .pure _) fun _ => ?_
  cases a <;> cases b
  case object.object => exact .bind (commonSuperclass_lazily lazily _ _) fun _ => .pure _
  case array.array => exact mergeArrays_lazily lazily _ _ _ _
  all_goals exact .pure _

theorem FlowType.merge_lazily (lazily : Lazily l H s) (a b : FlowType) :
    Follow l H (merge s a b) (merge H.source a b) := by
  refine .ite (fun _ => .pure _) fun _ => ?_
  cases a <;> cases b
  case object.object => exact .bind (RefType.merge_lazily lazily _ _) fun _ => .pure _
  all_goals exact .pure _

theorem FlowType.mergeLocal_lazily (lazily : Lazily l H s) (a b : FlowType) :
    Follow l H (mergeLocal s a b) (mergeLocal H.source a b) :=
  .bind (merge_lazily lazily a b) fun _ => .pure _

namespace Frame

theorem needing_lazily {α : Type} (offset : Nat) {x : Query (StateT ClassGraph Id) α}
    {y : Query Id α} (follow : Follow l H x y) :
    Follow l H (needing offset x) (needing offset y) := by
  unfold Follow
  rw [answer_needing]
  exact follow.map _

theorem mergeStackOnto_lazily (lazily : Lazily l H s) (done as bs : List FlowType) :
    Follow l H (mergeStackOnto s done as bs) (mergeStackOnto H.source done as bs) := by
  induction as generalizing bs done with
  | nil => exact .pure _
  | cons a as ih =>
    cases bs with
    | nil => exact .pure _
    | cons b bs =>
      refine .bind (FlowType.merge_lazily lazily a b) fun merged => ?_
      cases merged with
      | none => exact .pure _
      | some t => exact ih _ _

theorem mergeLocalsOnto_lazily (lazily : Lazily l H s) (done as bs : List FlowType) :
    Follow l H (mergeLocalsOnto s done as bs) (mergeLocalsOnto H.source done as bs) := by
  induction as generalizing bs done with
  | nil => exact .pure _
  | cons a as ih =>
    cases bs with
    | nil => exact .pure _
    | cons b bs => exact .bind (FlowType.mergeLocal_lazily lazily a b) fun _ => ih _ _

theorem merge_lazily (lazily : Lazily l H s) (offset : Nat) (f g : Frame) :
    Follow l H (merge s offset f g) (merge H.source offset f g) := by
  unfold merge
  refine .ite (fun _ => .bind (.throw _) fun _ => ?_) fun _ => ?_
  all_goals
    refine .bind (needing_lazily _ (mergeStackOnto_lazily lazily _ _ _)) fun merged => ?_
    cases merged with
    | none => exact .throw _
    | some stack =>
      exact .bind (needing_lazily _ (mergeLocalsOnto_lazily lazily _ _ _)) fun _ => .pure _

end Frame

namespace FlowState

theorem arrive_lazily (lazily : Lazily l H s) (target : Nat) (f : Frame) (st : FlowState) :
    Follow l H (arrive s target f st) (arrive H.source target f st) := by
  unfold arrive
  split
  · exact .pure _
  · exact .bind (Frame.merge_lazily lazily _ _ _) fun _ => .pure _

theorem raise_lazily (lazily : Lazily l H s) (before after : List FlowType) (st : FlowState)
    (clauses : List CatchClause) :
    Follow l H (raise s before after st clauses) (raise H.source before after st clauses) := by
  induction clauses generalizing st with
  | nil => exact .pure _
  | cons c clauses ih =>
    refine .bind (arrive_lazily lazily _ _ _) fun _ => ?_
    exact .bind (arrive_lazily lazily _ _ _) fun _ => ih _

theorem arriveAll_lazily (lazily : Lazily l H s) (f : Frame) (st : FlowState)
    (targets : List Nat) :
    Follow l H (arriveAll s f st targets) (arriveAll H.source f st targets) := by
  induction targets generalizing st with
  | nil => exact .pure _
  | cons target targets ih => exact .bind (arrive_lazily lazily _ _ _) fun _ => ih _

end FlowState

namespace FlowGraph

open FlowState

variable (g : FlowGraph)

theorem walk_lazily (lazily : Lazily l H s) (f : Frame) (st : FlowState) (code : List Located) :
    Follow l H (g.walk s f st code) (g.walk H.source f st code) := by
  induction code generalizing f st with
  | nil => exact .pure _
  | cons located code ih =>
    refine .bind (.ofExcept _) fun _ => ?_
    exact .bind (raise_lazily lazily _ _ _ _) fun _ => ih _ _

theorem visit_lazily (lazily : Lazily l H s) (b : Block) (f : Frame) (st : FlowState) :
    Follow l H (g.visit s b f st) (g.visit H.source b f st) := by
  refine .bind (walk_lazily g lazily _ _ _) fun ⟨out, st⟩ => ?_
  cases b.code.getLast? with
  | none => exact .pure _
  | some last => exact .bind (.ofExcept _) fun _ => arriveAll_lazily lazily _ _ _

theorem settle_lazily (lazily : Lazily l H s) (visits : Nat) (st : FlowState) :
    Follow l H (g.settle s visits st) (g.settle H.source visits st) := by
  induction visits generalizing st with
  | zero => exact .pure _
  | succ visits ih =>
    unfold settle
    cases st.pending with
    | nil => exact .pure _
    | cons start rest =>
      simp only
      split
      · exact .bind (visit_lazily g lazily _ _ _) fun _ => ih _
      · exact ih _

end FlowGraph

namespace Analysis

theorem catchClauses_lazily (lazily : Lazily l H s) (pool : Pool) (handlers : List Handler) :
    Follow l H (catchClauses s pool handlers) (catchClauses H.source pool handlers) := by
  induction handlers with
  | nil => exact .pure _
  | cons h hs ih =>
    refine .bind (.ofExcept _) fun c => ?_
    refine .lift_bind (isAssignable_lazily lazily _ _) ?_
    exact .bind ih fun _ => .pure _

theorem runWithin_lazily (lazily : Lazily l H s) (visits : Nat) (signature : Signature) (code : Code)
    (pool : Pool) :
    Follow l H (runWithin visits s signature code pool)
      (runWithin visits H.source signature code pool) := by
  refine .bind (.ofExcept _) fun _ => .bind (catchClauses_lazily lazily _ _) fun _ => ?_
  refine .bind (.ofExcept _) fun _ => .bind (FlowGraph.settle_lazily _ lazily _ _) fun settled => ?_
  cases settled with
  | none => exact .throw _
  | some st => exact .pure _

theorem run_lazily (lazily : Lazily l H s) (signature : Signature) (code : Code) (pool : Pool) :
    Follow l H (run s signature code pool) (run H.source signature code pool) := by
  have bound : visitLimit s signature code pool = visitLimit H.source signature code pool := by
    unfold visitLimit
    rw [lazily.bound]
    rfl
  unfold run
  rw [bound]
  exact runWithin_lazily lazily _ _ _ _

end Analysis

end StackMaps
