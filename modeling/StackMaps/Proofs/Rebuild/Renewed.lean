import StackMaps.Proofs.Rebuild.Again
import StackMaps.Proofs.Rebuild.Confined

/-! The stack map tables among the nested attributes of a method. The first one makes room for the new
one. Any further one stays where it is. -/

namespace StackMaps

variable {l : FixedLoader} {graph : ClassGraph} {signature : Signature} {code : Code} {pool : Pool}
  {a : Analysis} {r : Rebuilt} {before after : List Attribute} {old table : Option Attribute}

def Attribute.isTable (pool : Pool) (t : Attribute) : Bool :=
  t.hasName pool StackMapTable.attributeName

namespace Code

def tables (code : Code) (pool : Pool) : List Attribute :=
  code.attributes.filter (Attribute.isTable pool)

def others (code : Code) (pool : Pool) : List Attribute :=
  code.attributes.filter fun t => !t.isTable pool

def tablePlace (code : Code) (pool : Pool) : Nat := code.attributes.findIdx (Attribute.isTable pool)

/-- The nested attributes after a table was put among them, or none. Of the old tables, the stale ones
are still there. -/
structure Retabled (code code' : Code) (pool : Pool) (table : Option Attribute)
    (stale : List Attribute) : Prop where
  tables : code'.tables pool = table.toList ++ stale
  others : code'.others pool = code.others pool
  place : ∀ t, table = some t → code'.attributes[code.tablePlace pool]? = some t

/-- The nested attributes are cut where there is one table, or none, and no table is before it. -/
structure Cut (code : Code) (pool : Pool) (before : List Attribute) (table : Option Attribute)
    (after : List Attribute) : Prop where
  attributes : code.attributes = before ++ table.toList ++ after
  free : ∀ t ∈ before, t.isTable pool = false
  named : ∀ t, table = some t → t.isTable pool = true

theorem Cut.tables_eq (cut : code.Cut pool before table after) :
    code.tables pool = table.toList ++ after.filter (Attribute.isTable pool) := by
  have free : before.filter (Attribute.isTable pool) = [] := by simpa using cut.free
  have named : table.toList.filter (Attribute.isTable pool) = table.toList := by
    simpa using cut.named
  rw [tables, cut.attributes, List.filter_append, List.filter_append, free, named, List.nil_append]

theorem Cut.others_eq (cut : code.Cut pool before table after) :
    code.others pool = before ++ after.filter fun t => !t.isTable pool := by
  have free : before.filter (fun t => !t.isTable pool) = before := by simpa using cut.free
  have named : table.toList.filter (fun t => !t.isTable pool) = [] := by simpa using cut.named
  rw [others, cut.attributes, List.filter_append, List.filter_append, free, named, List.append_nil]

structure FirstTable (code : Code) (pool : Pool) (before : List Attribute) (old : Option Attribute)
    (after : List Attribute) : Prop extends code.Cut pool before old after where
  last : old = none → after = []

theorem exists_firstTable (code : Code) (pool : Pool) :
    ∃ before old after, code.FirstTable pool before old after := by
  cases found : code.attributes.find? (Attribute.isTable pool) with
  | none =>
    have free : ∀ t ∈ code.attributes, t.isTable pool = false := by
      simpa using List.find?_eq_none.1 found
    exact ⟨code.attributes, none, [], ⟨by simp, free, nofun⟩, fun _ => rfl⟩
  | some t =>
    obtain ⟨named, before, after, same, free⟩ := List.find?_eq_some_iff_append.1 found
    refine ⟨before, some t, after, ⟨by simp [same], by simpa using free, ?_⟩, nofun⟩
    rintro _ ⟨⟩
    exact named

namespace FirstTable

theorem findIdx?_eq (first : code.FirstTable pool before old after) :
    code.attributes.findIdx? (Attribute.isTable pool) = old.map fun _ => before.length := by
  have free : before.findIdx? (Attribute.isTable pool) = none :=
    List.findIdx?_eq_none_iff.2 first.free
  rw [first.attributes, List.append_assoc, List.findIdx?_append, free]
  cases old with
  | none => simp [first.last rfl]
  | some t => simp [List.findIdx?_cons, first.named t rfl]

theorem tablePlace_eq (first : code.FirstTable pool before old after) :
    code.tablePlace pool = before.length := by
  have index := first.findIdx?_eq
  cases old with
  | none =>
    rw [tablePlace, List.findIdx_eq_length.2 (List.findIdx?_eq_none_iff.1 index), first.attributes,
      first.last rfl]
    simp
  | some t => exact (List.findIdx?_eq_some_iff_findIdx_eq.1 index).2

theorem attributes_withTable (first : code.FirstTable pool before old after) (table : Option Attribute) :
    (code.withTable pool table).attributes = before ++ table.toList ++ after := by
  have index : code.tableIndex? pool = old.map fun _ => before.length := first.findIdx?_eq
  have attributes := first.attributes
  unfold withTable
  rw [index]
  cases old with
  | none =>
    obtain rfl := first.last rfl
    cases table <;> simp [attributes]
  | some t => cases table <;> simp [attributes, List.eraseIdx_append_of_length_le]

theorem retabled (first : code.FirstTable pool before old after)
    (named : ∀ t, table = some t → t.isTable pool = true) :
    code.Retabled (code.withTable pool table) pool table (code.tables pool).tail := by
  have attributes := first.attributes_withTable table
  have cut : (code.withTable pool table).Cut pool before table after :=
    ⟨attributes, first.free, named⟩
  have stale : (code.tables pool).tail = after.filter (Attribute.isTable pool) := by
    rw [first.tables_eq]
    cases old with
    | none => simp [first.last rfl]
    | some t => rfl
  refine ⟨stale ▸ cut.tables_eq, cut.others_eq.trans first.others_eq.symm, ?_⟩
  rintro t rfl
  rw [first.tablePlace_eq, attributes]
  simp

end FirstTable

/-- No old table is left if and only if there were not several. -/
theorem Retabled.renewed_iff {code' : Code}
    (retabled : code.Retabled code' pool table (code.tables pool).tail) :
    code.Retabled code' pool table [] ↔ (code.tables pool).length ≤ 1 := by
  have none : (code.tables pool).tail = [] ↔ (code.tables pool).length ≤ 1 := by
    rw [← List.length_eq_zero_iff, List.length_tail]
    omega
  rw [← none]
  constructor
  · intro renewed
    exact List.append_cancel_left (retabled.tables.symm.trans renewed.tables)
  · intro none
    rw [none] at retabled
    exact retabled

end Code

namespace Analysis

structure Makes (a : Analysis) (pool pool' : Pool) (table : Option Attribute) : Prop where
  added : a.adding.run pool = (.ok (a.frames.length, table), pool')
  absent : table = none ↔ a.frames = []
  named : ∀ t, table = some t → t.isTable pool' = true

theorem rebuild_makes (built : pool.Built) (ok : a.rebuild code pool = .ok r) :
    ∃ table, a.Makes pool r.pool table ∧ r.code = (a.buried code).withTable r.pool table := by
  obtain ⟨frames, table, added, code_eq, _⟩ := rebuild_eq_ok.1 ok
  obtain ⟨later, _, again⟩ := a.adds_adding_counted built added
  obtain ⟨_, rfl, absent, named⟩ := again r.pool later (.refl _)
  exact ⟨table, ⟨added, absent, named⟩, code_eq⟩

end Analysis

/-- A method with frames gets a table for them, in the place of the first old one or behind all
attributes, and one without frames gets none. What is no table stays as it is, in its order, and so
do all old tables but the first. No old table is left if and only if there was at most one. -/
theorem rebuild_renews (built : pool.Built)
    (ok : graph.answer (rebuild (graph.source l.loader) signature code pool) = .ok r) :
    ∃ a table, graph.answer (Analysis.run (graph.source l.loader) signature code pool) = .ok a ∧
      a.Makes pool r.pool table ∧
      (∀ t ∈ code.attributes, (∃ k, pool.get? t.name = some k) → t.isTable r.pool = t.isTable pool) ∧
      code.Retabled r.code r.pool table (code.tables r.pool).tail ∧
      (code.Retabled r.code r.pool table [] ↔ (code.tables r.pool).length ≤ 1) := by
  obtain ⟨a, run, rebuilt⟩ := rebuild_eq_ok.1 ok
  obtain ⟨table, makes, code_eq⟩ := Analysis.rebuild_makes built rebuilt
  obtain ⟨_, grows⟩ := Analysis.rebuild_grows built rebuilt
  obtain ⟨before, old, after, first⟩ := (a.buried code).exists_firstTable r.pool
  have retabled : code.Retabled r.code r.pool table (code.tables r.pool).tail := by
    -- Burying dead code leaves the nested attributes alone.
    have buried := first.retabled makes.named
    rw [code_eq]
    exact ⟨buried.tables, buried.others, buried.place⟩
  exact ⟨a, table, run, makes, fun t _ named => Attribute.hasName_of_grows built grows named _,
    retabled, retabled.renewed_iff⟩

def leavePool : Pool := .ofList [.utf8 (ModifiedUtf8.encode StackMapTable.attributeName), .utf8 [0x41]]

/-- The old table is between two other attributes. -/
def leaveTabled : Code := { leaveCode with attributes := [⟨2, []⟩, ⟨1, [0, 0]⟩, ⟨2, [7]⟩] }

theorem rebuild_renews_leave : leavePool.Built ∧ ∃ r a table,
    ClassGraph.standard.answer (rebuild (ClassGraph.standard.source FixedLoader.empty.loader)
      leaveSignature leaveTabled leavePool) = .ok r ∧
    ClassGraph.standard.answer (Analysis.run (ClassGraph.standard.source FixedLoader.empty.loader)
      leaveSignature leaveTabled leavePool) = .ok a ∧
    a.Makes leavePool r.pool table ∧ leaveTabled.Retabled r.code r.pool table [] ∧
    r.code.attributes.map (·.name) = [2, 1, 2] := by
  let rebuilt := ClassGraph.standard.answer (rebuild
    (ClassGraph.standard.source FixedLoader.empty.loader) leaveSignature leaveTabled leavePool)
  have facts : (rebuilt.toOption.map fun r => decide ((leaveTabled.tables r.pool).length ≤ 1 ∧
      r.code.attributes.map (·.name) = [2, 1, 2])) = some true := by decide +kernel
  have built : leavePool.Built := ⟨⟨_, rfl⟩, by decide⟩
  obtain ⟨r, ok, facts⟩ := Option.map_eq_some_iff.1 facts
  have ok : rebuilt = .ok r := toOption_eq_some.1 ok
  obtain ⟨single, names⟩ := of_decide_eq_true facts
  obtain ⟨a, table, run, makes, _, _, renewed⟩ := rebuild_renews built ok
  exact ⟨built, r, a, table, ok, run, makes, renewed.2 single, names⟩

/-- Of two tables the second one is still there, though no frames are needed. -/
example : (ClassGraph.standard.answer (rebuild (ClassGraph.standard.source FixedLoader.empty.loader)
    leaveSignature ⟨0, 0, [0xb1], [], [⟨1, [0, 0]⟩, ⟨1, [0, 1, 0]⟩]⟩ leavePool)).toOption.map (fun r =>
      (r.summary.frames, r.code.attributes)) = some (0, [⟨1, [0, 1, 0]⟩]) := by
  decide +kernel

end StackMaps
