import Mathlib.Data.List.Nodup
import StackMaps.Proofs.Hierarchy.Lazy
import StackMaps.Proofs.Hierarchy.Superclass

/-! The graphs that come up: the standard classes, classes that were made known, and classes that were
loaded. In all of them `java/lang/Object` is what it has to be. -/

namespace StackMaps

variable {l : FixedLoader} {g : ClassGraph}

namespace ClassGraph

inductive Built (l : FixedLoader) : ClassGraph → Prop
  | standard : Built l standard
  | insert {g : ClassGraph} (h : ClassHeader) (built : Built l g) : Built l (g.insert h)
  | lookup {g : ClassGraph} (n : BinaryName) (built : Built l g) :
    Built l (ClassGraph.lookup l.loader n g : _ × ClassGraph).2

theorem prefix_insert (g : ClassGraph) (h : ClassHeader) : g.known <+: (g.insert h).known := by
  unfold insert
  split
  · exact List.prefix_rfl
  · exact List.prefix_append _ _

theorem prefix_learn (g : ClassGraph) (n : BinaryName) (found : Option ClassHeader) :
    g.known <+: (g.learn n found).known := by
  cases found with
  | none => exact List.prefix_rfl
  | some h => exact prefix_insert g h

theorem knownHeader_of_prefix {g g' : ClassGraph} (kept : g.known <+: g'.known) {n : BinaryName}
    {h : ClassHeader} (known : g.knownHeader n = some h) : g'.knownHeader n = some h := by
  obtain ⟨more, same⟩ := kept
  rw [knownHeader] at known
  rw [knownHeader, ← same, List.find?_append, known]
  rfl

theorem Built.standard_prefix (built : g.Built l) : StandardClasses.all <+: g.known := by
  induction built with
  | standard => exact List.prefix_rfl
  | insert h _ ih => exact ih.trans (prefix_insert _ h)
  | @lookup g n _ ih =>
    unfold ClassGraph.lookup
    split
    · exact ih
    · split
      · exact ih
      · exact ih.trans (prefix_learn g n (l.load n))

theorem Built.find_standard (built : g.Built l) {n : BinaryName} {h : ClassHeader}
    (there : ClassGraph.standard.knownHeader n = some h) : (g.hierarchy l).find n = some h := by
  have known := knownHeader_of_prefix built.standard_prefix there
  change g.header l n = some h
  rw [header, known]

theorem Built.isRooted (built : g.Built l) : (g.hierarchy l).IsRooted := by
  intro h found
  rw [built.find_standard (h := ⟨.object, none, [], .ofBits 0x0021⟩) rfl] at found
  cases found
  rfl

theorem mem_known {g : ClassGraph} {n : BinaryName} {h : ClassHeader}
    (found : (g.hierarchy .empty).find n = some h) : h ∈ g.known ∧ h.name = n := by
  change g.header .empty n = some h at found
  unfold header at found
  split at found
  next known =>
    cases found
    exact ⟨List.mem_of_find?_eq_some known, name_of_knownHeader known⟩
  next =>
    split at found
    · cases found
    · cases found

/-- The standard classes and classes that were made known, before anything is looked up. -/
def fresh (added : List ClassHeader) : ClassGraph := standard.insertAll added

theorem knownHeader_insertAll (g : ClassGraph) (headers : List ClassHeader) (n : BinaryName) :
    (g.insertAll headers).knownHeader n = (g.known ++ headers).find? fun h => h.name = n := by
  induction headers generalizing g with
  | nil => rw [List.append_nil]; rfl
  | cons h rest ih =>
    change ((g.insert h).insertAll rest).knownHeader n = _
    rw [ih, List.find?_append, List.find?_append]
    change ((g.insert h).knownHeader n).or _ = (g.knownHeader n).or _
    rw [knownHeader_insert, Option.or_assoc, List.find?_cons]
    by_cases same : h.name = n <;> simp [same]

theorem missing_insertAll (g : ClassGraph) (headers : List ClassHeader) :
    (g.insertAll headers).missing = g.missing := by
  induction headers generalizing g with
  | nil => rfl
  | cons h rest ih => exact (ih (g.insert h)).trans (missing_insert g h)

def Distinct (g : ClassGraph) : Prop := (g.known.map (·.name)).Nodup

theorem standard_distinct : standard.Distinct := by
  unfold Distinct
  decide +kernel

theorem Distinct.insert {g : ClassGraph} (distinct : g.Distinct) (h : ClassHeader) :
    (g.insert h).Distinct := by
  unfold ClassGraph.insert
  cases known : g.knownHeader h.name with
  | some old => exact distinct
  | none =>
    have new : h.name ∉ g.known.map (·.name) := by
      simpa [knownHeader] using known
    unfold Distinct
    rw [List.map_append, List.map_singleton, ← List.concat_eq_append]
    exact List.Nodup.concat new distinct

theorem Distinct.insertAll {g : ClassGraph} (distinct : g.Distinct) (headers : List ClassHeader) :
    (g.insertAll headers).Distinct := by
  induction headers generalizing g with
  | nil => exact distinct
  | cons h rest ih => exact ih (distinct.insert h)

theorem Distinct.knownHeader {g : ClassGraph} (distinct : g.Distinct) {h : ClassHeader}
    (there : h ∈ g.known) : g.knownHeader h.name = some h := by
  cases known : g.knownHeader h.name with
  | none =>
    have away := List.find?_eq_none.1 known h there
    simp at away
  | some h' =>
    exact congrArg some (List.inj_on_of_nodup_map distinct (List.mem_of_find?_eq_some known) there
      (name_of_knownHeader known))

theorem headerBy_fresh (added : List ClassHeader) (load : BinaryName → Option ClassHeader)
    (n : BinaryName) : (fresh added).headerBy load n =
      ((StandardClasses.all ++ added).find? fun h => h.name = n).or (load n) := by
  have known : (fresh added).knownHeader n =
      (StandardClasses.all ++ added).find? fun h => h.name = n :=
    knownHeader_insertAll standard added n
  have missing : (fresh added).missing = [] := missing_insertAll standard added
  rw [headerBy, known, missing]
  cases (StandardClasses.all ++ added).find? fun h => h.name = n with
  | some h => rfl
  | none => exact if_neg List.not_mem_nil

def answer {ε α : Type} (g : ClassGraph) (x : ExceptT ε (StateT ClassGraph Id) α) : Except ε α :=
  (x.run.run g).1

def isAssignable (g : ClassGraph) (l : FixedLoader) (sub sup : RefType) : Bool :=
  ((g.source l.loader).isAssignable sub sup g : Bool × ClassGraph).1

theorem isAssignable_eq {sub sup : RefType} :
    g.isAssignable l sub sup = (g.hierarchy l).isAssignable sub sup :=
  (HeaderSource.isAssignable_lazily (HeaderSource.lazily_source g) sub sup g g.agrees_hierarchy).1

theorem answer_eq {ε α : Type} {x : ExceptT ε (StateT ClassGraph Id) α} {y : ExceptT ε Id α}
    (follow : Follow l (g.hierarchy l) x y) : g.answer x = StackMaps.answer y :=
  (follow g g.agrees_hierarchy).1

end ClassGraph

end StackMaps
