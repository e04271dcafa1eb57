import StackMaps.Proofs.ClassPath.Load
import StackMaps.Proofs.Hierarchy.Bound
import StackMaps.Proofs.Hierarchy.Built
import StackMaps.Proofs.Rebuild.Saved

/-! Questions to one graph, one after the other, on files that do not change. Which classes the graph
knows when a question comes depends on the questions before; no reply does. -/

namespace StackMaps

variable {σ α β : Type} {fs : FileSystem (StateM σ)} {cp : ClassPath} {added : List ClassHeader}
  {world : σ} {g : ClassGraph}

namespace ClassPath

/-- A graph that only classes of the class path were added to, so that a name leads where it led on
the fresh graph. -/
structure Grown (fs : FileSystem (StateM σ)) (cp : ClassPath) (added : List ClassHeader) (world : σ)
    (g : ClassGraph) : Prop where
  same : ∀ n, g.headerBy (cp.found fs world) n =
    (ClassGraph.fresh added).headerBy (cp.found fs world) n
  distinct : g.Distinct
  kept : (ClassGraph.fresh added).known <+: g.known

theorem grown_fresh : cp.Grown fs added world (.fresh added) :=
  ⟨fun _ => rfl, ClassGraph.standard_distinct.insertAll added, List.prefix_rfl⟩

theorem Grown.learn (still : fs.Still world) (grown : cp.Grown fs added world g) {n : BinaryName}
    (unknown : g.knownHeader n = none) (unasked : n ∉ g.missing) :
    cp.Grown fs added world (g.learn n (cp.found fs world n)) where
  same k := (g.headerBy_learn (cp.load_gives still n).2 unknown unasked k).trans (grown.same k)
  distinct := by
    cases cp.found fs world n with
    | none => exact grown.distinct
    | some h => exact grown.distinct.insert h
  kept := grown.kept.trans (g.prefix_learn n _)

theorem knownHeader_learn (still : fs.Still world) {n : BinaryName} (unknown : g.knownHeader n = none) :
    (g.learn n (cp.found fs world n)).knownHeader n = cp.found fs world n := by
  cases found : cp.found fs world n with
  | none => exact unknown
  | some h =>
    have name := (cp.load_gives still n).2 h found
    change (g.insert h).knownHeader n = some h
    rw [ClassGraph.knownHeader_insert, unknown, if_pos name]
    rfl

theorem lookup_spec (still : fs.Still world) (grown : cp.Grown fs added world g) (n : BinaryName) :
    ∃ g', Gives world ((ClassGraph.lookup (cp.loader fs) n).run g)
        ((ClassGraph.fresh added).headerBy (cp.found fs world) n, g') ∧
      cp.Grown fs added world g' ∧ g.known <+: g'.known ∧
      g'.knownHeader n = (ClassGraph.fresh added).headerBy (cp.found fs world) n := by
  rw [← grown.same n]
  cases known : g.knownHeader n with
  | some h =>
    refine ⟨g, ?_, grown, List.prefix_rfl, ?_⟩
    · simp only [ClassGraph.lookup, ClassGraph.headerBy, StateT.run, known]
      exact Gives.pure _
    · simp only [ClassGraph.headerBy, known]
  | none =>
    by_cases asked : n ∈ g.missing
    · refine ⟨g, ?_, grown, List.prefix_rfl, ?_⟩
      · simp only [ClassGraph.lookup, ClassGraph.headerBy, StateT.run, known, if_pos asked]
        exact Gives.pure _
      · simp only [ClassGraph.headerBy, known, if_pos asked]
    · refine ⟨g.learn n (cp.found fs world n), ?_, grown.learn still known asked,
        g.prefix_learn n _, ?_⟩
      · simp only [ClassGraph.lookup, ClassGraph.headerBy, StateT.run, known, if_neg asked]
        exact (cp.load_gives still n).1.bind (Gives.pure _)
      · simp only [ClassGraph.headerBy, known, if_neg asked]
        exact knownHeader_learn still known

/-- The computation gives the same on all such graphs, and makes of each another one that knows no
less. -/
def Steady (fs : FileSystem (StateM σ)) (cp : ClassPath) (added : List ClassHeader) (world : σ)
    (x : StateT ClassGraph (Warned (StateM σ)) α) (a : α) : Prop :=
  ∀ g, cp.Grown fs added world g → ∃ g', Gives world (x.run g) (a, g') ∧
    cp.Grown fs added world g' ∧ g.known <+: g'.known

namespace Steady

theorem pure (a : α) : cp.Steady fs added world (Pure.pure a) a :=
  fun g grown => ⟨g, Gives.pure _, grown, List.prefix_rfl⟩

theorem bind {x : StateT ClassGraph (Warned (StateM σ)) α} {a : α}
    {f : α → StateT ClassGraph (Warned (StateM σ)) β} {b : β}
    (first : cp.Steady fs added world x a) (next : cp.Steady fs added world (f a) b) :
    cp.Steady fs added world (x >>= f) b := by
  intro g grown
  obtain ⟨between, gives, grown, kept⟩ := first g grown
  obtain ⟨later, gives', grown, kept'⟩ := next between grown
  refine ⟨later, ?_, grown, kept.trans kept'⟩
  rw [StateT.run_bind]
  exact gives.bind gives'

end Steady

def steady (fs : FileSystem (StateM σ)) (cp : ClassPath) (added : List ClassHeader) (world : σ) :
    Telling (StateT ClassGraph (Warned (StateM σ))) :=
  ⟨cp.Steady fs added world, Steady.pure, Steady.bind⟩

def headers (fs : FileSystem (StateM σ)) (cp : ClassPath) (added : List ClassHeader) (world : σ)
    (bound : Nat) : HeaderSource Id :=
  ⟨(ClassGraph.fresh added).headerBy (cp.found fs world), bound⟩

theorem source_tells (still : fs.Still world) (g : ClassGraph) :
    (g.source (cp.loader fs)).Tells (cp.steady fs added world)
      (cp.headers fs added world (g.bound (cp.loader fs).capacity)) where
  find n g grown := by
    obtain ⟨g', gives, grown, kept, _⟩ := lookup_spec still grown n
    exact ⟨g', gives, grown, kept⟩
  bound := rfl

end ClassPath

def ClassGraph.reply (l : ClassLoader (Warned (StateM σ))) (world : σ) (g : ClassGraph)
    (q : Question) : Reply :=
  (((((g.source l).ask q).run g).run []).run world).1.1.1

namespace ClassPath

def freshReply (fs : FileSystem (StateM σ)) (cp : ClassPath) (added : List ClassHeader) (world : σ)
    (q : Question) : Reply :=
  (ClassGraph.fresh added).reply (cp.loader fs) world q

theorem reply_eq (still : fs.Still world) (grown : cp.Grown fs added world g) (q : Question) :
    g.reply (cp.loader fs) world q =
      (cp.headers fs added world (g.bound (cp.loader fs).capacity)).ask q := by
  obtain ⟨_, gives, _⟩ := HeaderSource.ask_tells (source_tells still g) q g grown
  obtain ⟨_, ran⟩ := gives []
  rw [ClassGraph.reply, ran]

theorem freshReply_eq (still : fs.Still world) (q : Question) :
    cp.freshReply fs added world q =
      (cp.headers fs added world ((ClassGraph.fresh added).bound (cp.loader fs).capacity)).ask q :=
  reply_eq still grown_fresh q

theorem freshReply_lookup (still : fs.Still world) (n : BinaryName) :
    cp.freshReply fs added world (.lookup n) =
      .header ((ClassGraph.fresh added).headerBy (cp.found fs world) n) := freshReply_eq still _

/-- One question of a session: the reply is that of a fresh graph, and a class that was looked up is
known afterwards. -/
theorem ask_spec (still : fs.Still world) (grown : cp.Grown fs added world g) (q : Question) :
    ∃ g', Gives world ((((ClassGraph.fresh added).source (cp.loader fs)).ask q).run g)
        (cp.freshReply fs added world q, g') ∧
      cp.Grown fs added world g' ∧ g.known <+: g'.known ∧
      ∀ n h, q = .lookup n → cp.freshReply fs added world q = .header (some h) →
        g'.knownHeader n = some h := by
  cases q with
  | lookup n =>
    obtain ⟨g', gives, grown, kept, known⟩ := lookup_spec still grown n
    rw [freshReply_lookup still]
    refine ⟨g', ?_, grown, kept, fun n' h same found => ?_⟩
    · change Gives world ((Reply.header <$> ClassGraph.lookup (cp.loader fs) n).run g) _
      rw [StateT.run_map, ← bind_pure_comp]
      exact gives.bind (Gives.pure _)
    · cases same
      rw [known]
      exact Reply.header.inj found
  | _ =>
    rw [freshReply_eq still]
    obtain ⟨g', gives, grown, kept⟩ := HeaderSource.ask_tells (source_tells still (.fresh added)) _ g grown
    exact ⟨g', gives, grown, kept, nofun⟩

def session {m : Type → Type} [Monad m] (fs : FileSystem m) (cp : ClassPath)
    (added : List ClassHeader) (qs : List Question) : StateT ClassGraph (Warned m) (List Reply) :=
  qs.mapM ((ClassGraph.fresh added).source (cp.loader fs)).ask

theorem session_from (still : fs.Still world) (qs : List Question)
    (grown : cp.Grown fs added world g) :
    ∃ g', Gives world ((cp.session fs added qs).run g)
        (qs.map (cp.freshReply fs added world), g') ∧
      cp.Grown fs added world g' ∧ g.known <+: g'.known ∧
      ∀ n h, .lookup n ∈ qs → cp.freshReply fs added world (.lookup n) = .header (some h) →
        g'.knownHeader n = some h := by
  induction qs generalizing g with
  | nil => exact ⟨g, Gives.pure _, grown, List.prefix_rfl, nofun⟩
  | cons q qs ih =>
    obtain ⟨between, gives, grown, kept, known⟩ := ask_spec still grown q
    obtain ⟨later, gives', grown, kept', known'⟩ := ih grown
    refine ⟨later, ?_, grown, kept.trans kept', fun n h asked found => ?_⟩
    · rw [session, List.mapM_cons, StateT.run_bind]
      refine gives.bind ?_
      rw [StateT.run_bind]
      exact gives'.bind (Gives.pure _)
    · obtain first | asked := List.mem_cons.1 asked
      · subst first
        exact ClassGraph.knownHeader_of_prefix kept' (known n h rfl found)
      · exact known' n h asked found

/-- No more classes are found than a search allows for. -/
def Limited (fs : FileSystem (StateM σ)) (cp : ClassPath) (world : σ) : Prop :=
  ∃ names : List BinaryName, names.length ≤ (cp.loader fs).capacity ∧
    ∀ n h, cp.found fs world n = some h → n ∈ names

theorem Grown.reply_of_limited (still : fs.Still world) (grown : cp.Grown fs added world g)
    (limited : cp.Limited fs world) (q : Question) :
    g.reply (cp.loader fs) world q = cp.freshReply fs added world q := by
  let loader : FixedLoader := ⟨cp.found fs world, (cp.loader fs).capacity,
    fun n => (cp.load_gives still n).2, limited⟩
  have same : (g.hierarchy loader).find = ((ClassGraph.fresh added).hierarchy loader).find :=
    funext grown.same
  have less : ((ClassGraph.fresh added).hierarchy loader).bound ≤ (g.hierarchy loader).bound :=
    Nat.add_le_add_right grown.kept.length_le _
  have own : cp.headers fs added world (g.bound (cp.loader fs).capacity) =
      (g.hierarchy loader).source := by
    rw [Hierarchy.source, same]
    rfl
  rw [reply_eq still grown, freshReply_eq still, own]
  exact Hierarchy.ask_further same less q

structure Consistent (fs : FileSystem (StateM σ)) (cp : ClassPath) (added : List ClassHeader)
    (world : σ) (qs : List Question) (g : ClassGraph) : Prop where
  /-- Standard classes come first, then those that were made known in their order, then files. -/
  order : ∀ n, cp.freshReply fs added world (.lookup n) =
    .header (((StandardClasses.all ++ added).find? fun h => h.name = n).or (cp.found fs world n))
  named : ∀ n h, cp.freshReply fs added world (.lookup n) = .header (some h) → h.name = n
  kept : (ClassGraph.fresh added).known <+: g.known
  returned : ∀ n h, .lookup n ∈ qs → cp.freshReply fs added world (.lookup n) = .header (some h) →
    g.knownHeader n = some h
  stored : ∀ h ∈ g.known, g.knownHeader h.name = some h ∧
    cp.freshReply fs added world (.lookup h.name) = .header (some h)
  /-- Going on with the same bound of searches. -/
  again : ∀ q, ∃ g', Gives world ((((ClassGraph.fresh added).source (cp.loader fs)).ask q).run g)
    (cp.freshReply fs added world q, g')
  /-- Starting anew with the graph, and its own bound. -/
  anew : cp.Limited fs world → ∀ q,
    g.reply (cp.loader fs) world q = cp.freshReply fs added world q

/-- Whatever was asked before, each question has the reply that it has on a fresh graph. -/
theorem session_consistent (still : fs.Still world) (cp : ClassPath) (added : List ClassHeader)
    (qs : List Question) :
    ∃ g, Gives world ((cp.session fs added qs).run (.fresh added))
        (qs.map (cp.freshReply fs added world), g) ∧
      cp.Consistent fs added world qs g := by
  have start : cp.Grown fs added world (.fresh added) := grown_fresh
  obtain ⟨g, gives, grown, _, returned⟩ := session_from still qs start
  refine ⟨g, gives, ?_⟩
  have order (n : BinaryName) : cp.freshReply fs added world (.lookup n) =
      .header (((StandardClasses.all ++ added).find? fun h => h.name = n).or (cp.found fs world n)) :=
    (freshReply_lookup still n).trans
      (congrArg Reply.header (ClassGraph.headerBy_fresh added _ n))
  exact {
    order
    named := fun n h reply => by
      rw [order, Reply.header.injEq, Option.or_eq_some_iff] at reply
      obtain early | ⟨_, found⟩ := reply
      · simpa using List.find?_some early
      · exact (cp.load_gives still n).2 h found
    kept := grown.kept
    returned
    stored := fun h there => by
      have known := grown.distinct.knownHeader there
      refine ⟨known, ?_⟩
      rw [freshReply_lookup still, ← grown.same, ClassGraph.headerBy, known]
    again := fun q => by
      obtain ⟨g', gives, _⟩ := ask_spec still grown q
      exact ⟨g', gives⟩
    anew := grown.reply_of_limited still }

def leaveLibrary : ClassPath := ⟨[⟨.directory, ⟨"lib"⟩⟩, ⟨.jar, ⟨"lib.jar"⟩⟩]⟩

def leaveFiles : List (Path × ByteArray) := [(⟨"lib.jar"⟩, ⟨Job.leaveJar.toArray⟩)]

def leaveHeader : ClassHeader := ⟨⟨"A", by decide +kernel⟩, none, [], .ofBits 0⟩

def belowLeave : ClassHeader := ⟨⟨"B", by decide +kernel⟩, some leaveHeader.name, [], .ofBits 0⟩

theorem shelf_still (files : List (Path × ByteArray)) : Job.shelf.Still files := by
  intro p
  cases found : files.find? (·.1.text == p.text) <;>
    simp only [Job.shelf, StateT.run_bind, StateT.run_get, pure_bind, found] <;> rfl

theorem leaveLibrary_found :
    leaveLibrary.found Job.shelf leaveFiles leaveHeader.name = some leaveHeader := by
  decide +kernel

/-- The first question loads the class on the way, the third one asks for a class that is nowhere. -/
def leaveQuestions : List Question :=
  [.isAssignable (.object belowLeave.name) (.object leaveHeader.name), .lookup leaveHeader.name,
    .isInterface ⟨"C", by decide +kernel⟩, .commonSuperclass belowLeave.name leaveHeader.name,
    .lookup leaveHeader.name]

theorem session_consistent_leave :
    Job.shelf.Still leaveFiles ∧
      leaveLibrary.found Job.shelf leaveFiles leaveHeader.name = some leaveHeader ∧
      ∃ g, Gives leaveFiles
          ((leaveLibrary.session Job.shelf [belowLeave] leaveQuestions).run (.fresh [belowLeave]))
          (leaveQuestions.map (leaveLibrary.freshReply Job.shelf [belowLeave] leaveFiles), g) ∧
        leaveLibrary.Consistent Job.shelf [belowLeave] leaveFiles leaveQuestions g :=
  ⟨shelf_still _, leaveLibrary_found,
    session_consistent (shelf_still _) leaveLibrary [belowLeave] leaveQuestions⟩

end ClassPath

end StackMaps
