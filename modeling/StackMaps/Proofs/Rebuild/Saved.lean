import StackMaps.Proofs.ClassFile.Requests
import StackMaps.Proofs.Rebuild.Confined

/-! The class file that a job saves is the one that it read, but for constants that were appended and
the code of the method that was asked for. -/

namespace StackMaps

open MonadAttach

namespace MethodChoice

variable {choice : MethodChoice} {pool : Pool} {name : String} {found : List (Nat × Method × String)}
  {p : Nat × Method × String}

def Asks (choice : MethodChoice) (pool : Pool) (m : Method) : Prop :=
  pool.utf8 m.name = .ok choice.name ∧
    ∀ wanted, choice.descriptor = some wanted → pool.utf8 m.descriptor = .ok wanted

structure IsFirst (choice : MethodChoice) (pool : Pool) (methods : List Method) (i : Nat)
    (m : Method) : Prop where
  there : methods[i]? = some m
  asked : choice.Asks pool m
  first : ∀ j m', j < i → methods[j]? = some m' → ¬ choice.Asks pool m'

theorem candidatesOnto_eq_ok {index : Nat} {done : List (Nat × Method × String)} {ms : List Method}
    (ok : candidatesOnto pool name index done ms = .ok found) : ∃ more, found = done.reverse ++ more ∧
      more.Pairwise (fun p q => p.1 < q.1) ∧
      (∀ p ∈ more, ∃ i, p.1 = index + i ∧ ms[i]? = some p.2.1 ∧ pool.utf8 p.2.1.name = .ok name ∧
        pool.utf8 p.2.1.descriptor = .ok p.2.2) ∧
      ∀ i m, ms[i]? = some m → pool.utf8 m.name = .ok name → ∃ d, (index + i, m, d) ∈ more := by
  induction ms generalizing index done with
  | nil =>
    cases ok
    exact ⟨[], by simp, .nil, nofun, nofun⟩
  | cons m ms ih =>
    rw [candidatesOnto] at ok
    obtain ⟨text, named, ok⟩ := bind_eq_ok.1 ok
    have later {more : List (Nat × Method × String)} (found : ∀ p ∈ more, ∃ i, p.1 = index + 1 + i ∧
        ms[i]? = some p.2.1 ∧ pool.utf8 p.2.1.name = .ok name ∧
        pool.utf8 p.2.1.descriptor = .ok p.2.2) : ∀ p ∈ more, ∃ i, p.1 = index + i ∧
        (m :: ms)[i]? = some p.2.1 ∧ pool.utf8 p.2.1.name = .ok name ∧
        pool.utf8 p.2.1.descriptor = .ok p.2.2 := fun p there => by
      obtain ⟨i, place, rest⟩ := found p there
      exact ⟨i + 1, by omega, rest⟩
    split at ok
    next same =>
      subst same
      obtain ⟨descriptor, described, ok⟩ := bind_eq_ok.1 ok
      obtain ⟨more, rfl, sorted, sound, complete⟩ := ih ok
      refine ⟨(index, m, descriptor) :: more, by simp, .cons (fun p there => ?_) sorted,
        List.forall_mem_cons.2 ⟨⟨0, rfl, rfl, named, described⟩, later sound⟩, fun i m' there named' => ?_⟩
      · obtain ⟨i, place, _⟩ := sound p there
        simp only
        omega
      · cases i with
        | zero =>
          cases there
          exact ⟨descriptor, List.mem_cons_self⟩
        | succ i =>
          obtain ⟨d, there⟩ := complete i m' there named'
          exact ⟨d, List.mem_cons_of_mem _ (by rwa [Nat.add_assoc, Nat.add_comm 1] at there)⟩
    next other =>
      obtain ⟨more, rfl, sorted, sound, complete⟩ := ih ok
      refine ⟨more, rfl, sorted, later sound, fun i m' there named' => ?_⟩
      cases i with
      | zero =>
        cases there
        rw [named] at named'
        exact absurd (Except.ok.inj named') other
      | succ i =>
        obtain ⟨d, there⟩ := complete i m' there named'
        exact ⟨d, by rwa [Nat.add_assoc, Nat.add_comm 1] at there⟩

theorem pick_eq_some (picked : choice.pick found = some p) : ∃ before after,
    found = before ++ p :: after ∧ (∀ wanted, choice.descriptor = some wanted → p.2.2 = wanted) ∧
      ∀ q ∈ before, ∃ wanted, choice.descriptor = some wanted ∧ q.2.2 ≠ wanted := by
  unfold pick at picked
  split at picked
  next none =>
    obtain ⟨after, rfl⟩ := List.head?_eq_some_iff.1 picked
    exact ⟨[], after, rfl, by simp [none], nofun⟩
  next wanted some =>
    obtain ⟨same, before, after, rfl, others⟩ := List.find?_eq_some_iff_append.1 picked
    refine ⟨before, after, rfl, fun w asked => ?_, fun q there => ⟨wanted, some, by simpa using others q there⟩⟩
    rw [some] at asked
    cases asked
    simpa using same

theorem isFirst_of_pick {c : ClassFile} (ok : candidates c choice.name = .ok found)
    (picked : choice.pick found = some p) :
    choice.IsFirst c.pool c.methods p.1 p.2.1 ∧ c.pool.utf8 p.2.1.descriptor = .ok p.2.2 := by
  obtain ⟨more, rfl, sorted, sound, complete⟩ := candidatesOnto_eq_ok ok
  obtain ⟨before, after, split, wanted, others⟩ := pick_eq_some picked
  subst split
  obtain ⟨i, place, there, named, described⟩ := sound p (by simp)
  rw [Nat.zero_add] at place
  subst place
  refine ⟨⟨there, ⟨named, fun w asked => by rw [described, wanted w asked]⟩, fun j m' less there' asked => ?_⟩,
    described⟩
  obtain ⟨d, candidate⟩ := complete j m' there' asked.1
  rw [Nat.zero_add] at candidate
  obtain ⟨_, later, _⟩ := List.pairwise_append.1 sorted
  obtain candidate | candidate := List.mem_append.1 candidate
  · obtain ⟨w, wants, differs⟩ := others _ candidate
    obtain ⟨_, _, _, _, own⟩ := sound _ (List.mem_append_left _ candidate)
    rw [asked.2 w wants] at own
    exact differs (Except.ok.inj own).symm
  · obtain same | candidate := List.mem_cons.1 candidate
    · have := congrArg Prod.fst same
      simp only at this
      omega
    · have := (List.pairwise_cons.1 later).1 _ candidate
      simp only at this
      omega

end MethodChoice

theorem exists_findIdx? {α : Type} {p : α → Bool} {xs : List α} {x : α} (first : xs.find? p = some x) :
    ∃ i, xs.findIdx? p = some i ∧ xs[i]? = some x := by
  induction xs with
  | nil => cases first
  | cons y xs ih =>
    rw [List.find?_cons] at first
    rw [List.findIdx?_cons]
    split at first
    next here =>
      cases first
      exact ⟨0, by rw [here, if_pos rfl], rfl⟩
    next other =>
      obtain ⟨i, index, there⟩ := ih first
      exact ⟨i + 1, by rw [other, index]; rfl, there⟩

theorem Method.codeIndex?_of_code? {m : Method} {pool : Pool} {code : Code}
    (ok : m.code? pool = .ok (some code)) : ∃ i t, m.codeIndex? pool = some i ∧
      m.attributes[i]? = some t ∧ Code.ofBody t.body = .ok code := by
  unfold code? at ok
  split at ok
  next => cases ok
  next t first =>
    obtain ⟨code', read, same⟩ := map_eq_ok.1 ok
    cases same
    obtain ⟨i, index, there⟩ := exists_findIdx? first
    exact ⟨i, t, index, there, read⟩

namespace ClassFile

/-- The names of the attributes of methods, and of those nested in code, are in the pool. -/
def NamesAttributes (c : ClassFile) : Prop := ∀ m ∈ c.methods, ∀ t ∈ m.attributes,
  (∃ k, c.pool.get? t.name = some k) ∧ ∀ code, Code.ofBody t.body = .ok code →
    ∀ t' ∈ code.attributes, ∃ k, c.pool.get? t'.name = some k

/-- What may differ after a job: the first code of the first method that was asked for, which is
`code` before and `code'` afterwards, and behind the constants other ones. -/
structure Confined (choice : MethodChoice) (c changed : ClassFile) (i j : Nat) (m : Method)
    (code code' : Code) (g : FlowGraph) : Prop where
  method : choice.IsFirst c.pool c.methods i m
  index : m.codeIndex? c.pool = some j
  decoded : ∃ t, m.attributes[j]? = some t ∧ Code.ofBody t.body = .ok code
  ready : ∃ owner text d, c.thisName = .ok owner ∧ c.pool.utf8 m.descriptor = .ok text ∧
    MethodDescriptor.parse text = .ok d ∧
    FlowGraph.ofCode ⟨owner, choice.name, d, m.isStatic⟩ code c.pool = .ok g
  whole : ∃ t, t.hasName changed.pool Code.attributeName = true ∧ t.body = code'.encode ∧
    changed = { c with
      pool := changed.pool
      methods := c.methods.set i { m with attributes := m.attributes.set j t } }
  constants : ∃ added, changed.pool.entries.toList = c.pool.entries.toList ++ added
  indices : ∀ k x, c.pool.get? k = some x → changed.pool.get? k = some x
  code : code.Confined g c.pool changed.pool code'

variable {m : Type → Type} [Monad m] [LawfulMonad m] [MonadAttach m] [LawfulMonadAttach m]
  {s : HeaderSource m} {c changed : ClassFile} {selected : Selection} {a : Analysis} {bytes : List UInt8}

theorem confined_of_rebuild {choice : MethodChoice} {owner : BinaryName}
    {found : List (Nat × Method × String)} {p : Nat × Method × String} (parsed : parse bytes = .ok c)
    (named : c.NamesAttributes) (this : c.thisName = .ok owner)
    (candidates : MethodChoice.candidates c choice.name = .ok found) (picked : choice.pick found = some p)
    (selects : c.selection owner choice.name p = .ok selected)
    (returns : CanReturn (Analysis.run s selected.signature selected.code c.pool) a)
    (ok : c.rebuild selected a = .ok changed) :
    ∃ i j m code code' g, Confined choice c changed i j m code code' g := by
  obtain ⟨i, method, text⟩ := p
  obtain ⟨isFirst, described⟩ := MethodChoice.isFirst_of_pick candidates picked
  obtain ⟨built, _⟩ := fits_of_parse parsed
  obtain ⟨g, st, run⟩ := Analysis.foundBy_of_run returns
  -- What is selected is the method that was picked, with its code.
  have known : ∃ code d, method.code? c.pool = .ok (some code) ∧ MethodDescriptor.parse text = .ok d ∧
      selected = ⟨i, method, ⟨owner, choice.name, d, method.isStatic⟩, code⟩ := by
    simp only [selection] at selects
    split at selects
    next => cases selects
    next => cases selects
    next code decoded =>
      split at selects
      next => cases selects
      next d descriptor =>
        cases selects
        exact ⟨code, d, decoded, descriptor, rfl⟩
  obtain ⟨code, d, decoded, descriptor, rfl⟩ := known
  obtain ⟨j, t, index, there, read⟩ := Method.codeIndex?_of_code? decoded
  have names := named method (List.mem_of_getElem? isFirst.there)
  cases rebuilt : a.rebuild code c.pool with
  | error e =>
    simp only [rebuild, rebuilt] at ok
    cases ok
  | ok r =>
    simp only [rebuild, rebuilt] at ok
    obtain ⟨later, grows⟩ := Analysis.rebuild_grows built rebuilt
    obtain ⟨t', j', rfl, is, index'⟩ := withCode_eq_ok built grows later decoded ok
    have same : method.codeIndex? r.pool = method.codeIndex? c.pool :=
      findIdx?_hasName_of_grows built grows (fun t there => (names t there).1) _
    obtain rfl : j' = j := Option.some.inj (index'.symm.trans (same.trans index))
    refine ⟨i, j', method, code, r.code, g, {
      method := isFirst
      index
      decoded := ⟨t, there, read⟩
      ready := ⟨owner, text, d, this, described, descriptor, run.ofCode⟩
      whole := ⟨t', is.hasName, is.body, ?_⟩
      constants := ?_
      indices := fun _ _ => grows.get? built
      code := run.confined built ((names t (List.mem_of_getElem? there)).2 code read) rebuilt }⟩
    · simp only [Method.withCode, index']
    · obtain ⟨added, same⟩ := grows
      refine ⟨added, ?_⟩
      simp only [same]
      exact built.toList_foldl_push added

end ClassFile

namespace Job

variable {σ α β : Type} {warnings warnings' : List Warning} {world world' : σ} {a : α} {b : β}

/-- The job succeeds with an answer. It finds the warnings and the world as those before, and leaves
those after. -/
def Ends (job : Job (StateM σ) α) (warnings : List Warning) (world : σ) (a : α)
    (warnings' : List Warning) (world' : σ) : Prop :=
  (job.run.run warnings).run world = ((.ok a, warnings'), world')

theorem ends_bind {x : Job (StateM σ) α} {f : α → Job (StateM σ) β}
    (ends : (x >>= f).Ends warnings world b warnings' world') : ∃ a between middle,
      x.Ends warnings world a between middle ∧ (f a).Ends between middle b warnings' world' := by
  unfold Ends at *
  rw [ExceptT.run_bind, StateT.run_bind, StateT.run_bind] at ends
  cases ran : (x.run.run warnings).run world with
  | mk first middle =>
    obtain ⟨result, between⟩ := first
    rw [ran] at ends
    cases result with
    | error e => cases ends
    | ok a => exact ⟨a, between, middle, rfl, ends⟩

theorem ends_lift {x : Warned (StateM σ) α}
    (ends : Ends (ExceptT.lift x) warnings world a warnings' world') :
    (x.run warnings).run world = ((a, warnings'), world') := by
  have lifted : ((ExceptT.lift x : Job (StateM σ) α).run.run warnings).run world =
      (fun p : (α × List Warning) × σ => ((.ok p.1.1, p.1.2), p.2)) ((x.run warnings).run world) := rfl
  rw [Ends, lifted] at ends
  cases ran : (x.run warnings).run world with
  | mk first middle =>
    rw [ran] at ends
    cases ends
    rfl

theorem ends_ask {question : StateM σ α} (ends : (ask question).Ends warnings world a warnings' world') :
    question.run world = (a, world') := by
  have lifted : ((StateT.lift question : Warned (StateM σ) α).run warnings).run world =
      (fun p : α × σ => ((p.1, warnings), p.2)) (question.run world) := rfl
  have asked := ends_lift ends
  rw [lifted] at asked
  cases ran : question.run world with
  | mk answer middle =>
    rw [ran] at asked
    cases asked
    rfl

theorem ends_expect {ε : Type} {cause : ε → JobError} {result : Except ε α}
    (ends : (expect cause result : Job (StateM σ) α).Ends warnings world a warnings' world') :
    result = .ok a ∧ world' = world := by
  cases result with
  | error e => cases ends
  | ok a =>
    cases ends
    exact ⟨rfl, rfl⟩

theorem canReturn_of_ends {fs : FileSystem (StateM σ)} {cp : ClassPath} {own : ClassHeader}
    {selected : Selection} {pool : Pool} {a : Analysis}
    (ends : (analyze fs cp own selected pool).Ends warnings world a warnings' world') :
    CanReturn (Analysis.run ((ClassGraph.standard.insert own).source (cp.loader fs))
      selected.signature selected.code pool) a := by
  obtain ⟨⟨result, g⟩, between, middle, ran, ends⟩ := ends_bind ends
  obtain ⟨rfl, _⟩ := ends_expect ends
  exact ⟨_, g, _, _, _, _, ends_lift ran⟩

/-- A job that succeeds ends with writing a class file that differs from the one it read in no more
than a method that was asked for and constants that were appended. -/
theorem rebuildFile_confined {fs : FileSystem (StateM σ)} {s : Settings} {path : Path}
    (ends : (rebuildFile fs s).Ends warnings world path warnings' world') :
    ∃ bytes c changed later last, (fs.read s.input).run world = (.ok bytes, later) ∧
      ClassFile.parse bytes.data.toList = .ok c ∧
      (fs.writeWithin path ⟨changed.encode.toArray⟩).run last = (.ok (), world') ∧
      (c.NamesAttributes → ∃ i j m code code' g, c.Confined s.method changed i j m code code' g) := by
  unfold rebuildFile at ends
  obtain ⟨read, _, later, asked, reading⟩ := ends_bind ends
  obtain ⟨bytes, _, _, expected, parsing⟩ := ends_bind reading
  obtain ⟨rfl, _⟩ := ends_expect expected
  obtain ⟨c, _, _, expected, naming⟩ := ends_bind parsing
  obtain ⟨parsed, _⟩ := ends_expect expected
  obtain ⟨owner, _, _, expected, warning⟩ := ends_bind naming
  obtain ⟨this, _⟩ := ends_expect expected
  obtain ⟨_, _, _, _, searching⟩ := ends_bind warning
  obtain ⟨found, _, _, expected, listing⟩ := ends_bind searching
  obtain ⟨candidates, _⟩ := ends_expect expected
  obtain ⟨_, _, _, _, picking⟩ := ends_bind listing
  cases picked : s.method.pick found with
  | none =>
    simp only [picked] at picking
    cases picking
  | some p =>
    simp only [picked] at picking
    obtain ⟨selected, _, _, expected, finding⟩ := ends_bind picking
    obtain ⟨selects, _⟩ := ends_expect expected
    obtain ⟨cp, _, _, _, heading⟩ := ends_bind finding
    obtain ⟨own, _, _, _, analyzing⟩ := ends_bind heading
    obtain ⟨a, _, _, analyzed, telling⟩ := ends_bind analyzing
    obtain ⟨_, _, _, _, rebuilding⟩ := ends_bind telling
    obtain ⟨changed, _, last, expected, writing⟩ := ends_bind rebuilding
    obtain ⟨rebuilt, _⟩ := ends_expect expected
    obtain ⟨written, _, _, wrote, closing⟩ := ends_bind writing
    obtain ⟨_, _, _, expected, returning⟩ := ends_bind closing
    obtain ⟨rfl, rfl⟩ := ends_expect expected
    cases returning
    exact ⟨bytes, c, changed, later, last, ends_ask asked, parsed, ends_ask wrote, fun named =>
      ClassFile.confined_of_rebuild parsed named this candidates picked selects
        (canReturn_of_ends analyzed) rebuilt⟩

/-- A jar with one file, `A.class`, which is stored as it is. -/
def leaveJar : List UInt8 :=
  [0x50, 0x4b, 0x03, 0x04, 0x14, 0x00, 0x00, 0x00, 0x00, 0x00, 0x00, 0x00, 0x21, 0x00, 0xdd,
    0x6a, 0xdc, 0xb7, 0x49, 0x00, 0x00, 0x00, 0x49, 0x00, 0x00, 0x00, 0x07, 0x00, 0x00, 0x00,
    0x41, 0x2e, 0x63, 0x6c, 0x61, 0x73, 0x73] ++
    ClassFile.leaveClass.encode ++
    [0x50, 0x4b, 0x01, 0x02, 0x14, 0x00, 0x14, 0x00, 0x00, 0x00, 0x00, 0x00, 0x00, 0x00, 0x21,
      0x00, 0xdd, 0x6a, 0xdc, 0xb7, 0x49, 0x00, 0x00, 0x00, 0x49, 0x00, 0x00, 0x00, 0x07, 0x00,
      0x00, 0x00, 0x00, 0x00, 0x00, 0x00, 0x00, 0x00, 0x00, 0x00, 0x80, 0x01, 0x00, 0x00, 0x00,
      0x00, 0x41, 0x2e, 0x63, 0x6c, 0x61, 0x73, 0x73, 0x50, 0x4b, 0x05, 0x06, 0x00, 0x00, 0x00,
      0x00, 0x01, 0x00, 0x01, 0x00, 0x35, 0x00, 0x00, 0x00, 0x6e, 0x00, 0x00, 0x00, 0x00, 0x00]

/-- Files that all lie side by side, the last one written first. Of archives only the jar is known. -/
def shelf : FileSystem (StateM (List (Path × ByteArray))) where
  kind p := do return ((← get).find? (·.1.text == p.text)).map fun _ => .file
  read p := do
    match (← get).find? (·.1.text == p.text) with
    | some (_, bytes) => return .ok bytes
    | none => return .error .missing
  list _ := return .error (.unusable "not a directory")
  resolve p := do return ((← get).find? (·.1.text == p.text)).map (·.1)
  createDirectory _ := return .ok ()
  write p bytes := do
    modify ((p, bytes) :: ·)
    return .ok ()
  archives := ⟨fun bytes =>
    if bytes.data.toList = leaveJar then
      .ok ⟨fun name =>
        if name = "A.class" then .ok (.ok ⟨ClassFile.leaveClass.encode.toArray⟩) else .error .missing⟩
    else .error (.unusable "not a readable archive"), 1⟩
  limit := 1024

/-- A method that returns at once, and another one of the same name before it. -/
def pairMethod : Method := ⟨.ofBits 8, 1, 5, [⟨4, leaveCode.encode⟩]⟩

def pairClass : ClassFile :=
  { ClassFile.leaveClass with
    pool := .ofList [.utf8 [0x41], .cls 1, .utf8 [0x28, 0x29, 0x56], .utf8 [0x43, 0x6f, 0x64, 0x65],
      .utf8 [0x28, 0x49, 0x29, 0x56]]
    methods := [pairMethod, ClassFile.leaveMethod] }

theorem pairClass_fits : pairClass.Fits where
  pool := ⟨⟨_, rfl, by decide⟩, by decide⟩
  superclass := by decide
  interfaces := by decide
  fields := ⟨by decide, nofun⟩
  methods := by
    have code : (⟨4, leaveCode.encode⟩ : Attribute).Fits := by
      rw [Attribute.Fits]
      decide
    refine ⟨by decide, fun m there => ?_⟩
    obtain rfl | rfl := List.mem_pair.1 there
    · exact ⟨by decide, fun t there => List.mem_singleton.1 there ▸ code⟩
    · exact ⟨by decide, fun t there => List.mem_singleton.1 there ▸ code⟩
  attributes := ⟨by decide, nofun⟩

theorem pairClass_namesAttributes : pairClass.NamesAttributes := by
  have whole : Code.ofBody leaveCode.encode = .ok leaveCode :=
    (Attribute.decodeBody_eq_ok Code.decoder_exact).2
      ⟨⟨by decide, by decide, nofun, by decide, nofun⟩, rfl⟩
  have named (t : Attribute) (same : t = ⟨4, leaveCode.encode⟩) :
      (∃ k, pairClass.pool.get? t.name = some k) ∧ ∀ code, Code.ofBody t.body = .ok code →
        ∀ t' ∈ code.attributes, ∃ k, pairClass.pool.get? t'.name = some k := by
    subst same
    refine ⟨⟨.utf8 [0x43, 0x6f, 0x64, 0x65], by decide +kernel⟩, fun code read => ?_⟩
    cases whole.symm.trans read
    exact List.forall_mem_nil _
  intro m there t there'
  obtain rfl | rfl := List.mem_pair.1 there
  · exact named t (List.mem_singleton.1 there')
  · exact named t (List.mem_singleton.1 there')

def pairSettings : Settings := ⟨⟨"A.class"⟩, ⟨"A", some "()V"⟩, ⟨"out"⟩, [⟨"lib.jar"⟩], none⟩

def pairFiles : List (Path × ByteArray) :=
  [(⟨"A.class"⟩, ⟨pairClass.encode.toArray⟩), (⟨"lib.jar"⟩, ⟨leaveJar.toArray⟩)]

theorem rebuildFile_confined_pair : ∃ path warnings files,
    (rebuildFile shelf pairSettings).Ends [] pairFiles path warnings files ∧
    ∃ changed j m code code' g, pairClass.NamesAttributes ∧
      pairClass.Confined pairSettings.method changed 1 j m code code' g ∧
      changed.methods.length = 2 ∧ changed.methods[0]? = some pairMethod := by
  let ended := ((rebuildFile shelf pairSettings).run.run []).run pairFiles
  have succeeds : ended.1.1.toOption.isSome = true := by decide +kernel
  obtain ⟨path, ok⟩ := Option.isSome_iff_exists.1 succeeds
  have ends : (rebuildFile shelf pairSettings).Ends [] pairFiles path ended.1.2 ended.2 :=
    Prod.ext (Prod.ext (toOption_eq_some.1 ok) rfl) rfl
  obtain ⟨bytes, c, changed, later, last, asked, parsed, wrote, confined⟩ := rebuildFile_confined ends
  have own : (shelf.read pairSettings.input).run pairFiles =
    (.ok ⟨pairClass.encode.toArray⟩, pairFiles) := rfl
  rw [own] at asked
  cases asked
  rw [ClassFile.parse_encode_iff.2 pairClass_fits] at parsed
  cases parsed
  obtain ⟨i, j, m, code, code', g, confined⟩ := confined pairClass_namesAttributes
  obtain rfl : i = 1 := by
    obtain ⟨there, ⟨_, described⟩, _⟩ := confined.method
    match i with
    | 0 =>
      cases there
      exact absurd (described "()V" rfl) (by decide +kernel)
    | 1 => rfl
    | i + 2 => cases there
  obtain ⟨t, _, _, same⟩ := confined.whole
  exact ⟨path, ended.1.2, ended.2, ends, changed, j, m, code, code', g, pairClass_namesAttributes,
    confined, by rw [same]; rfl, by rw [same]; rfl⟩

end Job

end StackMaps
