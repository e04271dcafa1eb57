import StackMaps.ClassPath.Basic
import StackMaps.Proofs.Hierarchy.Telling

/-! Loading classes from files that do not change. What is found under a name does not depend on what
was loaded before, and has this name, as class files of other classes are passed over. -/

namespace StackMaps

variable {σ α β : Type} {fs : FileSystem (StateM σ)} {world : σ}

def FileSystem.Still (fs : FileSystem (StateM σ)) (world : σ) : Prop :=
  ∀ p, ((fs.read p).run world).2 = world

/-- The computation gives a value and changes nothing but the warnings. -/
def Gives (world : σ) (x : Warned (StateM σ) α) (a : α) : Prop :=
  ∀ warnings, ∃ later, (x.run warnings).run world = ((a, later), world)

namespace Gives

theorem pure (a : α) : Gives world (Pure.pure a) a := fun warnings => ⟨warnings, rfl⟩

theorem bind {x : Warned (StateM σ) α} {a : α} {f : α → Warned (StateM σ) β} {b : β}
    (first : Gives world x a) (next : Gives world (f a) b) : Gives world (x >>= f) b := by
  intro warnings
  obtain ⟨between, ran⟩ := first warnings
  obtain ⟨later, ran'⟩ := next between
  refine ⟨later, ?_⟩
  rw [StateT.run_bind, StateT.run_bind, ran]
  exact ran'

theorem warn (w : Warning) : Gives world (StackMaps.warn w) () :=
  fun warnings => ⟨warnings ++ [w], rfl⟩

theorem lift {x : StateM σ α} {a : α} (stays : x.run world = (a, world)) :
    Gives world (liftM x : Warned (StateM σ) α) a := by
  intro warnings
  refine ⟨warnings, ?_⟩
  have lifted : ((liftM x : Warned (StateM σ) α).run warnings).run world =
      (fun p : α × σ => ((p.1, warnings), p.2)) (x.run world) := rfl
  rw [lifted, stays]

end Gives

def giving (world : σ) : Telling (Warned (StateM σ)) := ⟨Gives world, Gives.pure, Gives.bind⟩

namespace ClassPath

theorem classFile?_stays (still : fs.Still world) (e : ClassPathEntry) (n : BinaryName) :
    ∃ contents, (e.classFile? fs n).run world = (contents, world) := by
  have read : (fs.read (e.location n)).run world =
      (((fs.read (e.location n)).run world).1, world) := Prod.ext rfl (still _)
  simp only [ClassPathEntry.classFile?, StateT.run_bind]
  rw [read]
  cases ((fs.read (e.location n)).run world).1 with
  | ok bytes => exact ⟨e.unwrap fs.archives n bytes, rfl⟩
  | error fault =>
    by_cases absent : e.kind = .directory ∧ fault = .missing
    · exact ⟨.ok none, congrArg (StateT.run · world) (if_pos absent)⟩
    · exact ⟨.error (.unreadable (e.location n) fault),
        congrArg (StateT.run · world) (if_neg absent)⟩

theorem loadFrom_gives (still : fs.Still world) (n : BinaryName) (entries : List ClassPathEntry) :
    ∃ result, Gives world (loadFrom fs n entries).run result ∧
      ∀ h, result = .ok (some h) → h.name = n := by
  induction entries with
  | nil => exact ⟨.ok none, Gives.pure _, nofun⟩
  | cons e rest ih =>
    obtain ⟨later, gives, named⟩ := ih
    obtain ⟨contents, stays⟩ := classFile?_stays still e n
    have first := Gives.lift stays
    rw [loadFrom]
    match contents with
    | .error fault => exact ⟨.error fault, (giving world).run_lift_bind first (Gives.pure _), nofun⟩
    | .ok none => exact ⟨later, (giving world).run_lift_bind first gives, named⟩
    | .ok (some bytes) =>
      cases read : headerOf (e.location n) bytes with
      | error err =>
        refine ⟨.error err, (giving world).run_lift_bind first ?_, nofun⟩
        simp only [read]
        exact Gives.pure _
      | ok header =>
        have next (k : ClassHeader → ExceptT ClassPathError (Warned (StateM σ)) (Option ClassHeader)) :
            MonadExcept.ofExcept (.ok header) >>= k = k header := pure_bind header k
        by_cases same : header.name = n
        · refine ⟨.ok (some header), (giving world).run_lift_bind first ?_, fun h ok => ?_⟩
          · simp only [read, next, if_pos same]
            exact Gives.pure _
          · cases ok
            exact same
        · refine ⟨later, (giving world).run_lift_bind first ?_, named⟩
          simp only [read, next, if_neg same]
          exact (giving world).run_lift_bind (Gives.warn _) gives

/-- The header that a class path has for a name, if any. -/
def found (fs : FileSystem (StateM σ)) (cp : ClassPath) (world : σ) (n : BinaryName) :
    Option ClassHeader :=
  ((((cp.loader fs).load n).run []).run world).1.1

/-- As long as files do not change, loading is a function of the name. -/
theorem load_gives (still : fs.Still world) (cp : ClassPath) (n : BinaryName) :
    Gives world ((cp.loader fs).load n) (cp.found fs world n) ∧
      ∀ h, cp.found fs world n = some h → h.name = n := by
  obtain ⟨result, gives, named⟩ := loadFrom_gives still n cp.entries
  obtain ⟨header, gives, named⟩ : ∃ header, Gives world ((cp.loader fs).load n) header ∧
      ∀ h, header = some h → h.name = n := by
    cases result with
    | ok header => exact ⟨header, gives.bind (Gives.pure header), fun h same => named h (same ▸ rfl)⟩
    | error e => exact ⟨none, gives.bind ((Gives.warn _).bind (Gives.pure none)), nofun⟩
  obtain ⟨later, ran⟩ := gives []
  have same : cp.found fs world n = header := by rw [found, ran]
  rw [same]
  exact ⟨gives, named⟩

end ClassPath

end StackMaps
