import StackMaps.Proofs.Frame.Extended
import StackMaps.Proofs.Rebuild.Buried

/-! The data flow of the method that is written: its clauses are the live pieces of those of the
method that was read, and what its instructions do has not changed. -/

namespace StackMaps

variable {pool pool' : Pool} {h : Handler} {c c' : CatchClause} {dead : List (Nat × Nat)}

/-- A clause for each piece of the range that is left. -/
def CatchClause.trim (c : CatchClause) (dead : List (Nat × Nat)) : List CatchClause :=
  (Handler.livePieces c.start c.stop dead).map fun (start, stop) => { c with start, stop }

theorem CatchClause.covers_iff {offset : Nat} :
    c.covers offset = true ↔ c.start ≤ offset ∧ offset < c.stop := by
  rw [covers, Bool.and_eq_true, decide_eq_true_eq, decide_eq_true_eq]

theorem CatchClause.mem_trim (sorted : dead.Pairwise fun d d' => d.2 ≤ d'.1)
    (proper : ∀ d ∈ dead, d.1 < d.2) (there : c' ∈ c.trim dead) :
    c'.target = c.target ∧ c'.type = c.type ∧ ∀ offset, c'.covers offset = true →
      c.covers offset = true ∧ ∀ d ∈ dead, ¬ (d.1 ≤ offset ∧ offset < d.2) := by
  obtain ⟨p, member, rfl⟩ := List.mem_map.1 there
  have piece := Handler.livePieces_piece sorted proper member
  refine ⟨rfl, rfl, fun offset covered => ?_⟩
  obtain ⟨first, last⟩ : p.1 ≤ offset ∧ offset < p.2 := covers_iff.1 covered
  refine ⟨covers_iff.2 ⟨Nat.le_trans piece.start_le first, Nat.lt_of_lt_of_le last piece.le_stop⟩,
    fun d member => ?_⟩
  have := piece.apart d member
  omega

namespace Handler

theorem clause_eq_ok : h.clause pool = .ok c ↔ ∃ type, h.caught pool = .ok type ∧
    c = ⟨h.start.toNat, h.stop.toNat, h.target.toNat, type⟩ := by
  rw [clause, bind_eq_ok]
  refine exists_congr fun type => and_congr_right fun _ => ?_
  exact ⟨fun ok => by cases ok; rfl, fun same => by rw [same]; rfl⟩

theorem caught_extended (extends_ : pool'.Extends pool) {type : RefType}
    (ok : h.caught pool = .ok type) : h.caught pool' = .ok type := by
  unfold caught at ok ⊢
  split at ok
  next => exact ok
  next i _ => exact extends_.classType ok

theorem clause_trim (extends_ : pool'.Extends pool)
    (sorted : dead.Pairwise fun d d' => d.2 ≤ d'.1) (proper : ∀ d ∈ dead, d.1 < d.2)
    (ok : h.clause pool = .ok c) : (h.trim dead).mapM (·.clause pool') = .ok (c.trim dead) := by
  obtain ⟨type, caught, rfl⟩ := clause_eq_ok.1 ok
  have caught := caught_extended extends_ caught
  have pieces : ∀ p ∈ livePieces h.start.toNat h.stop.toNat dead, p.1 < 65536 ∧ p.2 < 65536 := by
    intro p there
    have piece := livePieces_piece sorted proper there
    have small := h.stop.toNat_lt
    have nonempty := piece.nonempty
    have le_stop := piece.le_stop
    omega
  rw [trim, CatchClause.trim]
  simp only
  generalize livePieces h.start.toNat h.stop.toNat dead = ps at pieces
  induction ps with
  | nil => rfl
  | cons p ps ih =>
    obtain ⟨⟨first, second⟩, pieces⟩ := List.forall_mem_cons.1 pieces
    have own : ({ h with start := UInt16.ofNat p.1, stop := UInt16.ofNat p.2 } : Handler).clause pool' =
        .ok ⟨p.1, p.2, h.target.toNat, type⟩ := by
      refine clause_eq_ok.2 ⟨type, caught, ?_⟩
      rw [UInt16.toNat_ofNat_of_lt' first, UInt16.toNat_ofNat_of_lt' second]
    rw [List.map_cons, List.mapM_cons, ih pieces, own]
    rfl

theorem clauses_trim (extends_ : pool'.Extends pool)
    (sorted : dead.Pairwise fun d d' => d.2 ≤ d'.1) (proper : ∀ d ∈ dead, d.1 < d.2)
    {handlers : List Handler} {clauses : List CatchClause}
    (ok : handlers.mapM (·.clause pool) = .ok clauses) :
    (handlers.flatMap (·.trim dead)).mapM (·.clause pool') =
      .ok (clauses.flatMap (·.trim dead)) := by
  induction handlers generalizing clauses with
  | nil =>
    cases ok
    rfl
  | cons h handlers ih =>
    rw [List.mapM_cons] at ok
    obtain ⟨c, first, ok⟩ := bind_eq_ok.1 ok
    obtain ⟨cs, rest, ok⟩ := bind_eq_ok.1 ok
    cases ok
    rw [List.flatMap_cons, List.flatMap_cons, List.mapM_append, ih rest,
      clause_trim extends_ sorted proper first]
    rfl

end Handler

theorem Code.withTable_eq (code : Code) (pool : Pool) (table : Option Attribute) :
    ∃ attributes, code.withTable pool table = { code with attributes } := by
  unfold withTable
  split <;> exact ⟨_, rfl⟩

namespace Analysis

variable {H : Hierarchy} {visits : Nat} {signature : Signature} {code : Code} {a : Analysis}
  {g : FlowGraph} {st : FlowState} {r : Rebuilt}

def rebuiltGraph (a : Analysis) (signature : Signature) (r : Rebuilt) (g : FlowGraph) : FlowGraph :=
  .ofInstructions signature r.code r.pool a.buriedCode (g.clauses.flatMap (·.trim a.deadRanges))

theorem rebuilt_handlers (ok : a.rebuild code pool = .ok r) :
    r.code.handlers = (a.buried code).handlers := by
  obtain ⟨_, written, _, same, _⟩ := rebuild_eq_ok.1 ok
  obtain ⟨attributes, changed⟩ := (a.buried code).withTable_eq r.pool written
  rw [same, changed]

theorem rebuilt_bytes (ok : a.rebuild code pool = .ok r) :
    r.code.bytes = (a.buried code).bytes := by
  obtain ⟨_, written, _, same, _⟩ := rebuild_eq_ok.1 ok
  obtain ⟨attributes, changed⟩ := (a.buried code).withTable_eq r.pool written
  rw [same, changed]

theorem rebuilt_holds_iff (ok : a.rebuild code pool = .ok r) {located : List Located} :
    r.code.Holds located ↔ (a.buried code).Holds located := by
  obtain ⟨_, written, _, same, _⟩ := rebuild_eq_ok.1 ok
  obtain ⟨attributes, changed⟩ := (a.buried code).withTable_eq r.pool written
  rw [same, changed]
  constructor <;> exact fun holds => ⟨holds.nonempty, holds.decodes, holds.targets, holds.handlers⟩

theorem Explored.length_rebuilt (explored : a.Explored signature code pool g)
    (ok : a.rebuild code pool = .ok r) : r.code.bytes.length = code.bytes.length := by
  rw [rebuilt_bytes ok]
  exact explored.pieces.length_bury a.isDead

namespace Found

theorem rebuilt_holds (found : a.Found H visits signature code pool g st)
    (ok : a.rebuild code pool = .ok r) : r.code.Holds a.buriedCode :=
  (rebuilt_holds_iff ok).2 found.explored.buried_holds

theorem rebuilt_clauses (found : a.Found H visits signature code pool g st)
    (extends_ : r.pool.Extends pool) (ok : a.rebuild code pool = .ok r) :
    r.code.handlers.mapM (·.clause r.pool) = .ok (g.clauses.flatMap (·.trim a.deadRanges)) := by
  obtain ⟨_, written, _, same, _⟩ := rebuild_eq_ok.1 ok
  obtain ⟨attributes, changed⟩ := (a.buried code).withTable_eq r.pool written
  rw [same, changed]
  exact Handler.clauses_trim extends_ found.explored.deadRanges_sorted
    found.explored.deadRanges_proper found.clauses

theorem rebuilt_ofCode (found : a.Found H visits signature code pool g st)
    (extends_ : r.pool.Extends pool) (ok : a.rebuild code pool = .ok r) :
    FlowGraph.ofCode signature r.code r.pool = .ok (a.rebuiltGraph signature r g) :=
  FlowGraph.ofCode_eq_ok.2
    ⟨a.buriedCode, _, found.rebuilt_holds ok, found.rebuilt_clauses extends_ ok, rfl⟩

theorem context_extends (found : a.Found H visits signature code pool g st)
    (extends_ : r.pool.Extends pool) :
    (a.rebuiltGraph signature r g).context.Extends g.context := by
  rw [found.graph]
  exact ⟨extends_, rfl, rfl⟩

end Found

end Analysis

end StackMaps
