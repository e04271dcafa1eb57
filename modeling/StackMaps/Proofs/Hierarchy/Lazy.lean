import StackMaps.Hierarchy.ClassGraph
import StackMaps.Proofs.Hierarchy.Telling

/-! A graph that loads classes when they are asked for answers like the hierarchy of all that it knows
or can load: what it learns on the way never changes what looking up a class gives. -/

namespace StackMaps

variable {l : FixedLoader} {H : Hierarchy} {α β ε : Type}

def ClassGraph.Agrees (l : FixedLoader) (H : Hierarchy) (g : ClassGraph) : Prop :=
  ∀ n, g.header l n = H.find n

theorem ClassGraph.agrees_hierarchy (g : ClassGraph) : g.Agrees l (g.hierarchy l) := fun _ => rfl

theorem ClassGraph.name_of_knownHeader {g : ClassGraph} {n : BinaryName} {h : ClassHeader}
    (known : g.knownHeader n = some h) : h.name = n := by
  simpa using List.find?_some known

theorem ClassGraph.knownHeader_insert (g : ClassGraph) (h : ClassHeader) (n : BinaryName) :
    (g.insert h).knownHeader n =
      (g.knownHeader n).or (if h.name = n then some h else none) := by
  unfold insert
  cases known : g.knownHeader h.name with
  | some old =>
    simp only
    by_cases same : h.name = n
    · subst same
      simp [known]
    · simp [same]
  | none =>
    simp only [knownHeader, List.find?_append, List.find?_singleton, decide_eq_true_eq]

theorem ClassGraph.missing_insert (g : ClassGraph) (h : ClassHeader) :
    (g.insert h).missing = g.missing := by
  unfold insert
  split <;> rfl

/-- The header that looking up a class gives, where this is what loading gives. -/
def ClassGraph.headerBy (g : ClassGraph) (load : BinaryName → Option ClassHeader) (n : BinaryName) :
    Option ClassHeader :=
  match g.knownHeader n with
  | some h => some h
  | none => if n ∈ g.missing then none else load n

/-- Learning what loading gives changes no answer, as it gives classes under their own names. -/
theorem ClassGraph.headerBy_learn (g : ClassGraph) {load : BinaryName → Option ClassHeader}
    {n : BinaryName} (named : ∀ h, load n = some h → h.name = n) (unknown : g.knownHeader n = none)
    (unasked : n ∉ g.missing) (k : BinaryName) :
    (g.learn n (load n)).headerBy load k = g.headerBy load k := by
  cases loaded : load n with
  | none =>
    simp only [learn, headerBy, knownHeader, List.mem_cons]
    by_cases same : k = n
    · subst same
      simp only [knownHeader] at unknown
      simp [unknown, unasked, loaded]
    · simp [same]
  | some h =>
    simp only [learn, headerBy, knownHeader_insert, named h loaded, missing_insert]
    by_cases same : n = k
    · subst same
      simp [unknown, unasked, loaded]
    · simp [same]

theorem ClassGraph.header_learn (g : ClassGraph) {n : BinaryName} (unknown : g.knownHeader n = none)
    (unasked : n ∉ g.missing) (k : BinaryName) :
    (g.learn n (l.load n)).header l k = g.header l k :=
  g.headerBy_learn (l.named n) unknown unasked k

/-- Whatever the graph has loaded so far, the computation gives `a`, and it loads only what the
hierarchy has. -/
def Tracks (l : FixedLoader) (H : Hierarchy) (x : StateT ClassGraph Id α) (a : α) : Prop :=
  ∀ g : ClassGraph, g.Agrees l H → (x g).1 = a ∧ (x g).2.Agrees l H

namespace Tracks

theorem pure (a : α) : Tracks l H (Pure.pure a) a := fun _ agrees => ⟨rfl, agrees⟩

theorem bind {x : StateT ClassGraph Id α} {a : α} {f : α → StateT ClassGraph Id β} {b : β}
    (first : Tracks l H x a) (next : Tracks l H (f a) b) : Tracks l H (x >>= f) b := by
  intro g agrees
  obtain ⟨same, agrees⟩ := first g agrees
  change (f (x g).1 (x g).2).1 = b ∧ (f (x g).1 (x g).2).2.Agrees l H
  rw [same]
  exact next _ agrees

theorem map {x : StateT ClassGraph Id α} {a : α} (f : α → β) (first : Tracks l H x a) :
    Tracks l H (f <$> x) (f a) := by
  rw [← bind_pure_comp]
  exact first.bind (pure _)

theorem lookup (n : BinaryName) : Tracks l H (ClassGraph.lookup l.loader n) (H.find n) := by
  intro g agrees
  have header := agrees n
  unfold ClassGraph.lookup
  unfold ClassGraph.header at header
  cases known : g.knownHeader n with
  | some h =>
    simp only [known] at header ⊢
    exact ⟨header, agrees⟩
  | none =>
    simp only [known] at header ⊢
    by_cases asked : n ∈ g.missing
    · simp only [asked, ↓reduceIte] at header ⊢
      exact ⟨header, agrees⟩
    · simp only [asked, ↓reduceIte] at header ⊢
      exact ⟨header, fun k => (g.header_learn known asked k).trans (agrees k)⟩

end Tracks

def tracking (l : FixedLoader) (H : Hierarchy) : Telling (StateT ClassGraph Id) :=
  ⟨Tracks l H, Tracks.pure, Tracks.bind⟩

def Follow (l : FixedLoader) (H : Hierarchy) (x : ExceptT ε (StateT ClassGraph Id) α)
    (y : ExceptT ε Id α) : Prop := Tracks l H x.run (answer y)

namespace Follow

variable {x : ExceptT ε (StateT ClassGraph Id) α} {y : ExceptT ε Id α}

theorem pure (a : α) : Follow l H (Pure.pure a : ExceptT ε _ α) (Pure.pure a) := Tracks.pure _

theorem throw (e : ε) : Follow l H (MonadExcept.throw e : ExceptT ε _ α) (MonadExcept.throw e) :=
  Tracks.pure _

theorem ofExcept (e : Except Error α) : Follow l H (StackMaps.ofExcept e) (StackMaps.ofExcept e) :=
  Tracks.pure _

theorem bind {f : α → ExceptT ε (StateT ClassGraph Id) β} {f' : α → ExceptT ε Id β}
    (first : Follow l H x y) (next : ∀ a, Follow l H (f a) (f' a)) :
    Follow l H (x >>= f) (y >>= f') := (tracking l H).answers_bind first next

theorem lift_bind {z : StateT ClassGraph Id α} {a : Id α}
    {f : α → ExceptT ε (StateT ClassGraph Id) β} {f' : α → ExceptT ε Id β} (first : Tracks l H z a)
    (next : Follow l H (f a) (f' a)) : Follow l H (liftM z >>= f) (liftM a >>= f') :=
  (tracking l H).answers_lift_bind first next

theorem ite {p : Prop} [Decidable p] {x' : ExceptT ε (StateT ClassGraph Id) α} {y' : ExceptT ε Id α}
    (yes : p → Follow l H x y) (no : ¬ p → Follow l H x' y') :
    Follow l H (if p then x else x') (if p then y else y') := (tracking l H).answers_ite yes no

theorem foldlM {f : β → α → ExceptT ε (StateT ClassGraph Id) β} {f' : β → α → ExceptT ε Id β}
    (step : ∀ b a, Follow l H (f b a) (f' b a)) (b : β) (as : List α) :
    Follow l H (as.foldlM f b) (as.foldlM f' b) := by
  induction as generalizing b with
  | nil => exact pure b
  | cons a as ih => exact bind (step b a) ih

end Follow

namespace HeaderSource

variable {g : ClassGraph}

/-- A source over the graph, and the one over the hierarchy. -/
structure Lazily (l : FixedLoader) (H : Hierarchy) (s : HeaderSource (StateT ClassGraph Id)) :
    Prop where
  find : ∀ n, Tracks l H (s.find n) (H.find n)
  bound : s.bound = H.bound

theorem lazily_source (g : ClassGraph) : Lazily l (g.hierarchy l) (g.source l.loader) :=
  ⟨Tracks.lookup, rfl⟩

variable {s : HeaderSource (StateT ClassGraph Id)}

theorem Lazily.tells (lazily : Lazily l H s) : s.Tells (tracking l H) H.source :=
  ⟨lazily.find, lazily.bound⟩

theorem commonSuperclass_lazily (lazily : Lazily l H s) (a b : BinaryName) :
    Follow l H (s.commonSuperclass a b) (H.source.commonSuperclass a b) :=
  commonSuperclass_tells lazily.tells a b

theorem isAssignable_lazily (lazily : Lazily l H s) (a b : RefType) :
    Tracks l H (s.isAssignable a b) (H.source.isAssignable a b : Bool) :=
  isAssignable_tells lazily.tells a b

end HeaderSource

end StackMaps
