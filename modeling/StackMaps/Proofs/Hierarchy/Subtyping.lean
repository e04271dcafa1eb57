import StackMaps.Proofs.Frame.Assignable
import StackMaps.Proofs.Hierarchy.Built

/-! Where interfaces are kept apart from classes, a type can be used as another one exactly if the other
one is above it. Superclass links may still run in circles: the search ends on all of them. Interfaces
lead nowhere but to interfaces and to `java/lang/Object`, so that a search for a class misses nothing by
leaving them out. -/

namespace StackMaps

namespace HeaderSource

/-- How a search on a graph goes on without a limit on its steps, through the graphs that looking up
classes leaves and the classes seen and pending, and what it says in the end. -/
inductive SearchEnds (s : HeaderSource (StateT ClassGraph Id)) (wanted : BinaryName)
    (withInterfaces : Bool) : ClassGraph → (seen pending : List BinaryName) → Bool → Prop
  | exhausted {g g' : ClassGraph} {seen pending : List BinaryName}
    (step : (s.nextStep wanted pending g : SearchStep × ClassGraph) = (.exhausted, g')) :
    SearchEnds s wanted withInterfaces g seen pending false
  | hit {g g' : ClassGraph} {seen pending : List BinaryName}
    (step : (s.nextStep wanted pending g : SearchStep × ClassGraph) = (.hit, g')) :
    SearchEnds s wanted withInterfaces g seen pending true
  | expand {g g' : ClassGraph} {seen pending rest : List BinaryName} {h : ClassHeader} {yes : Bool}
    (step : (s.nextStep wanted pending g : SearchStep × ClassGraph) = (.expand h rest, g'))
    (further : SearchEnds s wanted withInterfaces g' (enqueue (h.parents withInterfaces) seen rest).1
      (enqueue (h.parents withInterfaces) seen rest).2 yes) :
    SearchEnds s wanted withInterfaces g seen pending yes

inductive SubclassEnds (s : HeaderSource (StateT ClassGraph Id)) (g : ClassGraph)
    (sub sup : BinaryName) : Bool → Prop
  | same (start : sub = sup ∨ sup = .object) : SubclassEnds s g sub sup true
  | search {g' : ClassGraph} {withInterfaces yes : Bool} (apart : ¬ (sub = sup ∨ sup = .object))
    (kind : (s.isInterface sup g : Bool × ClassGraph) = (withInterfaces, g'))
    (ends : s.SearchEnds sup withInterfaces g' [sub] [sub] yes) : SubclassEnds s g sub sup yes

variable {s : HeaderSource (StateT ClassGraph Id)} {g : ClassGraph} {l : FixedLoader} {H : Hierarchy}

theorem SearchEnds.unique {wanted : BinaryName} {withInterfaces : Bool} {seen pending : List BinaryName}
    {yes yes' : Bool} (ends : s.SearchEnds wanted withInterfaces g seen pending yes)
    (ends' : s.SearchEnds wanted withInterfaces g seen pending yes') : yes = yes' := by
  induction ends with
  | exhausted step =>
    cases ends' with
    | exhausted => rfl
    | hit step' => cases step.symm.trans step'
    | expand step' => cases step.symm.trans step'
  | hit step =>
    cases ends' with
    | exhausted step' => cases step.symm.trans step'
    | hit => rfl
    | expand step' => cases step.symm.trans step'
  | expand step _ ih =>
    cases ends' with
    | exhausted step' => cases step.symm.trans step'
    | hit step' => cases step.symm.trans step'
    | expand step' further' =>
      cases step.symm.trans step'
      exact ih further'

theorem SubclassEnds.unique {sub sup : BinaryName} {yes yes' : Bool}
    (ends : s.SubclassEnds g sub sup yes) (ends' : s.SubclassEnds g sub sup yes') : yes = yes' := by
  cases ends with
  | same start =>
    cases ends' with
    | same => rfl
    | search apart => exact absurd start apart
  | search apart kind ends =>
    cases ends' with
    | same start => exact absurd start apart
    | search _ kind' ends' =>
      cases kind.symm.trans kind'
      exact ends.unique ends'

/-- A search that has taken no header twice ends before its limit, which is one more than there are
headers. -/
theorem searchEnds_of_searching (lazily : Lazily l H s) {wanted : BinaryName} {withInterfaces : Bool}
    {fuel : Nat} {taken seen pending : List BinaryName} (agrees : g.Agrees l H)
    (searching : H.Searching wanted withInterfaces taken seen pending)
    (enough : taken.length + fuel = H.bound + 1) :
    s.SearchEnds wanted withInterfaces g seen pending
      (H.source.searchFrom wanted withInterfaces fuel seen pending) := by
  induction fuel generalizing g taken seen pending with
  | zero =>
    have := Hierarchy.length_le_bound searching.taken_nodup searching.taken_known
    omega
  | succ fuel ih =>
    obtain ⟨same, later⟩ := nextStep_tells lazily.tells wanted pending g agrees
    rw [Hierarchy.searchFrom_succ]
    obtain ⟨step, _⟩ | ⟨step, _⟩ | ⟨passed, n, h, rest, step, rfl, found, miss, unknown⟩ :=
      @Hierarchy.nextStep_eq H wanted pending
    · rw [step] at same ⊢
      exact .hit (Prod.ext same rfl)
    · rw [step] at same ⊢
      exact .exhausted (Prod.ext same rfl)
    · rw [step] at same ⊢
      obtain ⟨_, searching⟩ := searching.expand found miss unknown
      exact .expand (Prod.ext same rfl) (ih later searching (by simp only [List.length_cons]; omega))

theorem subclassEnds_iff {sub sup : BinaryName} {yes : Bool} :
    (g.source l.loader).SubclassEnds g sub sup yes ↔
      g.isAssignable l (.object sub) (.object sup) = yes := by
  have ends : (g.source l.loader).SubclassEnds g sub sup
      (g.isAssignable l (.object sub) (.object sup)) := by
    rw [ClassGraph.isAssignable_eq]
    change SubclassEnds _ _ _ _ ((g.hierarchy l).isSubclass sub sup)
    by_cases start : sub = sup ∨ sup = .object
    · have yes : (g.hierarchy l).isSubclass sub sup = true := if_pos start
      rw [yes]
      exact .same start
    · have lazily := lazily_source (l := l) g
      obtain ⟨same, later⟩ := isInterface_tells lazily.tells sup g g.agrees_hierarchy
      have search : (g.hierarchy l).isSubclass sub sup = (g.hierarchy l).source.searchFrom sup
          ((g.hierarchy l).isInterface sup) ((g.hierarchy l).bound + 1) [sub] [sub] := if_neg start
      rw [search]
      exact .search start (Prod.ext same rfl)
        (searchEnds_of_searching lazily later (Hierarchy.searching_start sup _ sub) (Nat.zero_add _))
  exact ⟨ends.unique, fun same => same ▸ ends⟩

end HeaderSource

namespace Hierarchy

variable {H : Hierarchy} {c d i : BinaryName}

def Ascends (H : Hierarchy) : BinaryName → BinaryName → Prop :=
  Relation.ReflTransGen (H.Climbs true)

/-- Nothing but interfaces is named as an interface of a class, and the superclass of an interface is
`java/lang/Object`. -/
structure IsLayered (H : Hierarchy) : Prop where
  interfaces : ∀ n h, H.find n = some h → ∀ i ∈ h.interfaces, H.isInterface i = true
  superclass : ∀ n h, H.find n = some h → h.isInterface = true → h.superclass = some .object

structure IsTopped (H : Hierarchy) : Prop where
  object : ∀ d, ¬ H.Climbs true .object d
  arrays : ∀ c d, HeaderSource.isAboveArrays c = true → H.Climbs true c d →
    HeaderSource.isAboveArrays d = true

namespace IsLayered

variable (layered : H.IsLayered) (topped : H.IsTopped)

include layered topped

theorem isInterface_or_object (start : H.isInterface i = true) (up : H.Ascends i d) :
    H.isInterface d = true ∨ d = .object := by
  induction up with
  | refl => exact .inl start
  | @tail m d _ link ih =>
    obtain interface | rfl := ih
    · obtain ⟨h, found, parent⟩ := link
      rw [isInterface_eq found] at interface
      rw [ClassHeader.parents, layered.superclass m h found interface] at parent
      obtain object | further := List.mem_append.1 parent
      · exact .inr (by simpa using object)
      · exact .inl (layered.interfaces m h found d further)
    · exact absurd link (topped.object d)

/-- The way to a class goes through superclasses only: once at an interface, it would lead to
interfaces and `java/lang/Object`. -/
theorem climbs_of_ascends (cls : H.isInterface d = false) (below : d ≠ .object) (up : H.Ascends c d) :
    Relation.ReflTransGen (H.Climbs false) c d := by
  induction up using Relation.ReflTransGen.head_induction_on with
  | refl => exact .refl
  | @head c m link up ih =>
    obtain ⟨h, found, parent⟩ := link
    obtain superclass | further := List.mem_append.1 parent
    · exact ih.head ⟨h, found, List.mem_append_left _ superclass⟩
    · obtain interface | top :=
        layered.isInterface_or_object topped (layered.interfaces c h found m further) up
      · rw [cls] at interface
        cases interface
      · exact absurd top below

theorem isSubclass_iff_ascends : H.isSubclass c d = true ↔ d = .object ∨ H.Ascends c d := by
  rw [isSubclass_iff]
  cases kind : H.isInterface d with
  | true => exact Iff.rfl
  | false =>
    constructor
    · refine Or.imp_right (Relation.ReflTransGen.mono (fun _ _ link => ?_) c d)
      obtain ⟨h, found, parent⟩ := link
      refine ⟨h, found, List.mem_append_left _ ?_⟩
      simpa [ClassHeader.parents] using parent
    · rintro (top | up)
      · exact .inl top
      · by_cases top : d = .object
        · exact .inl top
        · exact .inr (layered.climbs_of_ascends topped kind top up)

theorem isSubclass_trans {a b c : BinaryName} (ab : H.isSubclass a b = true)
    (bc : H.isSubclass b c = true) : H.isSubclass a c = true := by
  rw [layered.isSubclass_iff_ascends topped] at ab bc ⊢
  obtain rfl | bc := bc
  · exact .inl rfl
  · obtain rfl | ab := ab
    · obtain rfl | ⟨d, link, _⟩ := Relation.ReflTransGen.cases_head bc
      · exact .inl rfl
      · exact absurd link (topped.object d)
    · exact .inr (Relation.ReflTransGen.trans ab bc)

theorem isAboveArrays_of_isSubclass (above : HeaderSource.isAboveArrays c = true)
    (up : H.isSubclass c d = true) : HeaderSource.isAboveArrays d = true := by
  obtain rfl | ascends := (layered.isSubclass_iff_ascends topped).1 up
  · rfl
  · clear up
    induction ascends with
    | refl => exact above
    | tail _ link ih => exact topped.arrays _ _ ih link

end IsLayered

end Hierarchy

namespace RefType

variable {R : BinaryName → BinaryName → Prop}

theorem Conforms.refl (refl : ∀ n, R n n) (a : RefType) : a.Conforms R a := by
  cases a with
  | object n => exact refl n
  | array i e =>
    refine .inl ⟨rfl, ?_⟩
    cases e with
    | base b => rfl
    | object n => exact refl n

theorem Conforms.trans (trans : ∀ a b c, R a b → R b c → R a c)
    (up : ∀ c d, HeaderSource.isAboveArrays c = true → R c d → HeaderSource.isAboveArrays d = true)
    {a b c : RefType} (ab : a.Conforms R b) (bc : b.Conforms R c) : a.Conforms R c := by
  have element {a b c : ElementType} (ab : a.Below R b) (bc : b.Below R c) : a.Below R c := by
    cases a <;> cases b <;> cases c <;> simp only [ElementType.Below, reduceCtorEq] at ab bc ⊢
    · exact ab.trans bc
    · exact trans _ _ _ ab bc
  cases a with
  | object a =>
    cases b with
    | array j b => exact ab.elim
    | object b =>
      cases c with
      | object c => exact trans a b c ab bc
      | array k c => exact bc.elim
  | array i a =>
    cases b with
    | object b =>
      cases c with
      | object c => exact up b c ab bc
      | array k c => exact bc.elim
    | array j b =>
      cases c with
      | object c => exact bc
      | array k c =>
        obtain ⟨rfl, ab⟩ | ⟨deeper, n, rfl, above⟩ := ab
        · exact bc.imp_left (And.imp_right (element ab))
        · obtain ⟨rfl, bc⟩ | ⟨less, bc⟩ := bc
          · cases c with
            | base c => cases bc
            | object c => exact .inr ⟨deeper, c, rfl, up n c above bc⟩
          · exact .inr ⟨Nat.lt_trans less deeper, bc⟩

end RefType

namespace ClassGraph

variable {g : ClassGraph} {l : FixedLoader}

theorem Built.isTopped (built : g.Built l) : (g.hierarchy l).IsTopped := by
  have object : ∀ d, ¬ (g.hierarchy l).Climbs true .object d := by
    rintro d ⟨h, found, parent⟩
    rw [built.find_standard (h := ⟨.object, none, [], .ofBits 0x0021⟩) rfl] at found
    cases found
    simp [ClassHeader.parents] at parent
  have interface {n : BinaryName} (there : ClassGraph.standard.knownHeader n =
      some (StandardClasses.declareInterface n [])) {d : BinaryName}
      (link : (g.hierarchy l).Climbs true n d) : d = .object := by
    obtain ⟨h, found, parent⟩ := link
    rw [built.find_standard there] at found
    cases found
    simpa [ClassHeader.parents, StandardClasses.declareInterface] using parent
  refine ⟨object, fun c d above link => ?_⟩
  have top : d = .object := by
    simp only [HeaderSource.isAboveArrays, Bool.or_eq_true, decide_eq_true_eq] at above
    obtain (rfl | rfl) | rfl := above
    · exact absurd link (object d)
    · exact interface (by decide +kernel) link
    · exact interface (by decide +kernel) link
  rw [top]
  rfl

structure Subtyping (g : ClassGraph) (l : FixedLoader) : Prop where
  ends : ∀ a b yes, (g.source l.loader).SubclassEnds g a b yes ↔
    g.isAssignable l (.object a) (.object b) = yes
  decides : ∀ a b, g.isAssignable l (.object a) (.object b) = true ↔
    a = b ∨ b = .object ∨ (g.hierarchy l).Ascends a b
  refl : ∀ a, g.isAssignable l a a = true
  trans : ∀ a b c, g.isAssignable l a b = true → g.isAssignable l b c = true →
    g.isAssignable l a c = true

/-- Where interfaces are kept apart from classes, the search for a class ends with whether links lead
to it, and types can be used as one another as an order says. -/
theorem Built.subtyping (built : g.Built l) (layered : (g.hierarchy l).IsLayered) : g.Subtyping l where
  ends _ _ _ := HeaderSource.subclassEnds_iff
  decides a b := by
    rw [isAssignable_eq]
    change (g.hierarchy l).isSubclass a b = true ↔ _
    rw [layered.isSubclass_iff_ascends built.isTopped]
    constructor
    · exact .inr
    · rintro (rfl | above)
      · exact .inr .refl
      · exact above
  refl a := by
    rw [isAssignable_eq, Hierarchy.isAssignable_iff]
    exact .refl (fun n => Hierarchy.isSubclass_of_under (.refl n)) a
  trans a b c ab bc := by
    rw [isAssignable_eq, Hierarchy.isAssignable_iff] at ab bc ⊢
    refine .trans (R := fun c d => (g.hierarchy l).isSubclass c d = true) ?_ ?_ ab bc
    · exact fun _ _ _ => layered.isSubclass_trans built.isTopped
    · exact fun _ _ => layered.isAboveArrays_of_isSubclass built.isTopped

def tick : BinaryName := ⟨"clock/Tick", by decide +kernel⟩
def tock : BinaryName := ⟨"clock/Tock", by decide +kernel⟩

def clock : ClassGraph :=
  (standard.insert ⟨tick, some tock, [.comparable], .ofBits 0x0021⟩).insert
    ⟨tock, some tick, [.list], .ofBits 0x0021⟩

theorem clock_isLayered : (clock.hierarchy .empty).IsLayered where
  interfaces n h found := by
    have all : ∀ h ∈ clock.known, ∀ i ∈ h.interfaces, (clock.hierarchy .empty).isInterface i = true := by
      decide +kernel
    exact all h (mem_known found).1
  superclass n h found := by
    have all : ∀ h ∈ clock.known, h.isInterface = true → h.superclass = some .object := by
      decide +kernel
    exact all h (mem_known found).1

theorem Built.subtyping_clock : clock.Built .empty ∧ (clock.hierarchy .empty).IsLayered ∧
    (clock.source FixedLoader.empty.loader).SubclassEnds clock tick .iterable true ∧
    (clock.source FixedLoader.empty.loader).SubclassEnds clock tick .string false ∧
    clock.isAssignable .empty (.array 2 (.object tick)) (.array 0 (.object .object)) = true := by
  have built : clock.Built .empty := .insert _ (.insert _ .standard)
  have subtyping := Built.subtyping built clock_isLayered
  have round : (clock.hierarchy .empty).Climbs true tick tock := ⟨_, rfl, List.mem_cons_self⟩
  have list : (clock.hierarchy .empty).Climbs true tock .list :=
    ⟨_, rfl, List.mem_cons_of_mem _ List.mem_cons_self⟩
  have collection : (clock.hierarchy .empty).Climbs true .list .collection :=
    ⟨_, rfl, List.mem_cons_of_mem _ List.mem_cons_self⟩
  have iterable : (clock.hierarchy .empty).Climbs true .collection .iterable :=
    ⟨_, rfl, List.mem_cons_of_mem _ List.mem_cons_self⟩
  have up : (clock.hierarchy .empty).Ascends tick .iterable :=
    .head round (.head list (.head collection (.single iterable)))
  refine ⟨built, clock_isLayered, (subtyping.ends _ _ _).2 ?_, (subtyping.ends _ _ _).2 ?_, ?_⟩
  · exact (subtyping.decides _ _).2 (.inr (.inr up))
  · decide +kernel
  · exact subtyping.trans _ (.array 1 (.object .cloneable)) _ rfl rfl

end ClassGraph

end StackMaps
