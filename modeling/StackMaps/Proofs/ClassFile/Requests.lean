import Mathlib.Data.List.Nodup
import Mathlib.Logic.Relation
import StackMaps.ClassFile.Attribute
import StackMaps.Proofs.ClassFile.Adding
import StackMaps.Proofs.ClassFile.Codec

/-! The life of a pool: it starts empty or is read from a class file, and then it is asked for
constants, with success or without. Nothing in it ever moves, nothing is put in twice, and what was
found once is found again. -/

namespace StackMaps.Pool

def first? (pool : Pool) (c : Constant) : Option ConstantIndex :=
  (pool.items.find? (·.2 == c)).map (·.1)

/-- The index of a constant, or the constant itself if the pool lacks it. -/
def seek (pool : Pool) (c : Constant) : Except Constant ConstantIndex :=
  match pool.first? c with
  | some i => .ok i
  | none => .error c

def HasText (pool : Pool) (text : String) (i : ConstantIndex) : Prop :=
  pool.get? i = some (.utf8 (ModifiedUtf8.encode text))

def HasClass (pool : Pool) (name : String) (i : ConstantIndex) : Prop :=
  ∃ n, pool.HasText name n ∧ pool.get? i = some (.cls n)

def HasNameAndType (pool : Pool) (name descriptor : String) (i : ConstantIndex) : Prop :=
  ∃ n d, pool.HasText name n ∧ pool.HasText descriptor d ∧ pool.get? i = some (.nameAndType n d)

inductive Request
  | utf8 (text : String)
  | cls (name : String)
  | string (text : String)
  | integer (value : Int32)
  | long (value : Int64)
  | nameAndType (name descriptor : String)
  | field (owner name descriptor : String)
  | method (owner name descriptor : String) (ofInterface : Bool)
  | named (name : String) (body : List UInt8)

namespace Request

def run : Request → Adding ConstantIndex
  | utf8 text => indexOfUtf8 text
  | cls name => indexOfClass name
  | string text => indexOfString text
  | integer value => indexOfInteger value
  | long value => indexOfLong value
  | nameAndType name descriptor => indexOfNameAndType name descriptor
  | field owner name descriptor => indexOfField owner name descriptor
  | method owner name descriptor ofInterface => indexOfMethod owner name descriptor ofInterface
  | named name body => Attribute.name <$> Attribute.adding name body

/-- The pool has at this index what is requested, down to the texts. -/
def IsAt (pool : Pool) : Request → ConstantIndex → Prop
  | utf8 text, i | named text _, i => pool.HasText text i
  | cls name, i => pool.HasClass name i
  | string text, i => ∃ t, pool.HasText text t ∧ pool.get? i = some (.string t)
  | integer value, i => pool.get? i = some (.integer value)
  | long value, i => pool.get? i = some (.long value)
  | nameAndType name descriptor, i => pool.HasNameAndType name descriptor i
  | field owner name descriptor, i => ∃ o m,
    pool.HasClass owner o ∧ pool.HasNameAndType name descriptor m ∧
      pool.get? i = some (.fieldRef o m)
  | method owner name descriptor ofInterface, i => ∃ o m,
    pool.HasClass owner o ∧ pool.HasNameAndType name descriptor m ∧
      pool.get? i = some (.methodRef o m ofInterface)

section Resolve

variable {m : Type → Type} [Monad m] (look : Constant → m ConstantIndex)

def resolveText (text : String) : m ConstantIndex := look (.utf8 (ModifiedUtf8.encode text))

def resolveClass (name : String) : m ConstantIndex := do
  look (.cls (← resolveText look name))

def resolveNameAndType (name descriptor : String) : m ConstantIndex := do
  let name ← resolveText look name
  let descriptor ← resolveText look descriptor
  look (.nameAndType name descriptor)

/-- The constants that a request needs, parts first: `look` gives each its index. -/
def resolve : Request → m ConstantIndex
  | utf8 text | named text _ => resolveText look text
  | cls name => resolveClass look name
  | string text => do look (.string (← resolveText look text))
  | integer value => look (.integer value)
  | long value => look (.long value)
  | nameAndType name descriptor => resolveNameAndType look name descriptor
  | field owner name descriptor => do
    let owner ← resolveClass look owner
    let member ← resolveNameAndType look name descriptor
    look (.fieldRef owner member)
  | method owner name descriptor ofInterface => do
    let owner ← resolveClass look owner
    let member ← resolveNameAndType look name descriptor
    look (.methodRef owner member ofInterface)

end Resolve

theorem run_eq_resolve (r : Request) : r.run = r.resolve indexOf := by
  cases r with
  | named name body =>
    simp only [run, resolve, Attribute.adding, map_eq_pure_bind, bind_assoc, pure_bind, bind_pure]
    rfl
  | _ => rfl

end Request

variable {α β : Type} {pool pool' now after later : Pool} {cs cs' : List Constant} {c : Constant}
  {i : ConstantIndex} {r : Request}

/-- The index of the pool tells where it has a constant first. -/
theorem Built.index_eq_first? (built : pool.Built) (c : Constant) :
    pool.index[c.key]? = pool.first? c := by
  obtain ⟨cs, rfl⟩ := built.grown
  have same : (fun p : Nat × Constant => p.2.key == c.key) = fun p => p.2 == c := by
    funext p
    rw [Bool.eq_iff_iff, beq_iff_eq, beq_iff_eq]
    exact ⟨Constant.key_inj, congrArg _⟩
  rw [index_ofList, same, first?, items, (holds_ofList cs).entries, start_ofList, List.find?_map,
    Option.map_map]
  rfl

theorem first?_eq_none : pool.first? c = none ↔ c ∉ pool.entries.toList := by
  simp only [first?, items, SlotSeq.toList, Option.map_eq_none_iff, List.find?_eq_none, List.mem_map]
  constructor
  · rintro other ⟨⟨offset, c'⟩, there, rfl⟩
    exact other _ ⟨_, there, rfl⟩ (beq_self_eq_true _)
  · rintro lacks _ ⟨⟨offset, c'⟩, there, rfl⟩ same
    exact lacks ⟨_, there, beq_iff_eq.1 same⟩

theorem Built.get?_of_first? (built : pool.Built) (found : pool.first? c = some i) :
    pool.get? i = some c :=
  built.get?_of_index (built.index_eq_first? c ▸ found)

theorem Grows.first? (grows : pool.Grows later) (built : pool.Built) (later_built : later.Built)
    (found : pool.first? c = some i) : later.first? c = some i := by
  rw [← built.index_eq_first?] at found
  rw [← later_built.index_eq_first?]
  exact grows.index built found

theorem seek_eq_ok : pool.seek c = .ok i ↔ pool.first? c = some i := by
  rw [seek]
  cases pool.first? c <;> simp

theorem seek_eq_error : pool.seek c = .error c ↔ c ∉ pool.entries.toList := by
  rw [seek, ← first?_eq_none]
  cases pool.first? c <;> simp

theorem Request.isAt_of_resolve (built : pool.Built) (found : r.resolve pool.seek = .ok i) :
    r.IsAt pool i := by
  have look : ∀ {c i}, pool.seek c = .ok i → pool.get? i = some c := fun there =>
    built.get?_of_first? (seek_eq_ok.1 there)
  have cls : ∀ {name i}, resolveClass pool.seek name = .ok i → pool.HasClass name i := by
    intro name i there
    obtain ⟨n, text, there⟩ := bind_eq_ok.1 there
    exact ⟨n, look text, look there⟩
  have pair : ∀ {name descriptor i}, resolveNameAndType pool.seek name descriptor = .ok i →
      pool.HasNameAndType name descriptor i := by
    intro name descriptor i there
    obtain ⟨n, text, there⟩ := bind_eq_ok.1 there
    obtain ⟨d, text', there⟩ := bind_eq_ok.1 there
    exact ⟨n, d, look text, look text', look there⟩
  cases r with
  | utf8 text | named text body | integer value | long value => exact look found
  | cls name => exact cls found
  | string text =>
    obtain ⟨t, text, found⟩ := bind_eq_ok.1 found
    exact ⟨t, look text, look found⟩
  | nameAndType name descriptor => exact pair found
  | field owner name descriptor | method owner name descriptor ofInterface =>
    obtain ⟨o, there, found⟩ := bind_eq_ok.1 found
    obtain ⟨m, there', found⟩ := bind_eq_ok.1 found
    exact ⟨o, m, cls there, pair there', look found⟩

structure Fresh (pool : Pool) (cs : List Constant) : Prop where
  nodup : cs.Nodup
  lacks : ∀ c ∈ cs, c ∉ pool.entries.toList

theorem Built.toList_foldl_push (built : pool.Built) (cs : List Constant) :
    (cs.foldl Pool.push pool).entries.toList = pool.entries.toList ++ cs := by
  obtain ⟨before, rfl⟩ := built.grown
  rw [(holds_ofList before).toList, ofList, ← List.foldl_append]
  exact (holds_ofList (before ++ cs)).toList

theorem Fresh.nil : pool.Fresh [] := ⟨.nil, nofun⟩

theorem Fresh.append (built : pool.Built) (first : pool.Fresh cs)
    (second : (cs.foldl Pool.push pool).Fresh cs') : pool.Fresh (cs ++ cs') := by
  have lacks := second.lacks
  simp only [built.toList_foldl_push, List.mem_append, not_or] at lacks
  refine ⟨List.nodup_append'.2 ⟨first.nodup, second.nodup, ?_⟩, fun c there => ?_⟩
  · exact fun c there there' => (lacks c there').2 there
  · obtain there | there := List.mem_append.1 there
    · exact first.lacks c there
    · exact (lacks c there).1

/-- How a computation ends that needs what `sought` seeks: all of it is there, or the next constant
that is missing does not fit. -/
structure Ends (sought : Pool → Except Constant α) (pool : Pool) (result : Except Error α)
    (pool' : Pool) : Prop where
  built : pool'.Built
  added : ∃ cs, pool' = cs.foldl push pool ∧ pool.Fresh cs
  ok : ∀ a, result = .ok a → sought pool' = .ok a
  failed : ∀ e, result = .error e → e = .poolFull pool'.entries.next ∧
    ∃ c, sought pool' = .error c ∧ c ∉ pool'.entries.toList ∧ 65535 < pool'.entries.next + width c

structure Seeks (x : Adding α) (sought : Pool → Except Constant α) : Prop where
  stays : ∀ ⦃pool later a⦄, pool.Built → later.Built → pool.Grows later →
    sought pool = .ok a → sought later = .ok a
  known : ∀ ⦃pool a⦄, pool.Built → sought pool = .ok a → x.run pool = (.ok a, pool)
  ends : ∀ ⦃pool result pool'⦄, pool.Built → x.run pool = (result, pool') →
    Ends sought pool result pool'

theorem seeks_indexOf (c : Constant) : Seeks (indexOf c) fun pool => pool.seek c where
  stays _ _ _ built later_built grows found :=
    seek_eq_ok.2 (grows.first? built later_built (seek_eq_ok.1 found))
  known _ _ built found := indexOf_known (built.index_eq_first? c ▸ seek_eq_ok.1 found)
  ends := by
    intro pool result pool' built ran
    rw [run_indexOf, built.index_eq_first?] at ran
    cases found : pool.first? c with
    | some i =>
      rw [found] at ran
      cases ran
      refine ⟨built, ⟨[], rfl, .nil⟩, fun _ same => ?_, fun _ same => by cases same⟩
      cases same
      exact seek_eq_ok.2 found
    | none =>
      have lacks := first?_eq_none.1 found
      rw [found] at ran
      simp only at ran
      split at ran
      next full =>
        cases ran
        refine ⟨built, ⟨[], rfl, .nil⟩, nofun, fun _ same => ?_⟩
        cases same
        exact ⟨rfl, c, seek_eq_error.2 lacks, lacks, full⟩
      next room =>
        have added := built.push (c := c) (by omega)
        have ok : (indexOf c).run pool = (.ok (UInt16.ofNat pool.entries.next), pool.push c) := by
          rw [run_indexOf, built.index_eq_first?, found]
          exact if_neg room
        cases ran
        refine ⟨added, ⟨[c], rfl, List.nodup_singleton c, ?_⟩, fun _ same => ?_,
          fun _ same => by cases same⟩
        · simpa using lacks
        · cases same
          rw [seek_eq_ok, ← added.index_eq_first?]
          exact (indexOf_eq_ok built ok).2.2

theorem Seeks.bind {x : Adding α} {f : α → Adding β} {first : Pool → Except Constant α}
    {next : α → Pool → Except Constant β} (seeks : Seeks x first)
    (seeks' : ∀ a, Seeks (f a) (next a)) :
    Seeks (x >>= f) fun pool => first pool >>= fun a => next a pool where
  stays := by
    intro pool later b built later_built grows found
    obtain ⟨a, found, found'⟩ := bind_eq_ok.1 found
    exact bind_eq_ok.2 ⟨a, seeks.stays built later_built grows found,
      (seeks' a).stays built later_built grows found'⟩
  known := by
    intro pool b built found
    obtain ⟨a, found, found'⟩ := bind_eq_ok.1 found
    exact run_bind_eq_ok.2 ⟨a, pool, seeks.known built found, (seeks' a).known built found'⟩
  ends := by
    intro pool result pool' built ran
    change ExceptT.bindCont f (x.run pool).1 (x.run pool).2 = _ at ran
    rcases ran' : x.run pool with ⟨result', middle⟩
    have ends := seeks.ends built ran'
    rw [ran'] at ran
    cases result' with
    | error e =>
      -- the rest is not run
      cases ran
      obtain ⟨full, c, missing, wide⟩ := ends.failed e rfl
      refine ⟨ends.built, ends.added, nofun, fun _ same => ?_⟩
      cases same
      exact ⟨full, c, by rw [missing]; rfl, wide⟩
    | ok a =>
      have ends' := (seeks' a).ends ends.built ran
      obtain ⟨cs, rfl, fresh⟩ := ends.added
      obtain ⟨cs', rfl, fresh'⟩ := ends'.added
      have found := seeks.stays ends.built ends'.built ⟨cs', rfl⟩ (ends.ok a rfl)
      refine ⟨ends'.built, ⟨cs ++ cs', (List.foldl_append ..).symm, fresh.append built fresh'⟩,
        fun b same => ?_, fun e same => ?_⟩
      · exact bind_eq_ok.2 ⟨a, found, ends'.ok b same⟩
      · obtain ⟨full, c, missing, wide⟩ := ends'.failed e same
        exact ⟨full, c, by rw [found]; exact missing, wide⟩

theorem Request.seeks (r : Request) : Seeks r.run fun pool => r.resolve pool.seek := by
  have text (text : String) : Seeks (resolveText indexOf text) fun pool => resolveText pool.seek text :=
    seeks_indexOf _
  have cls (name : String) : Seeks (resolveClass indexOf name) fun pool => resolveClass pool.seek name :=
    (text name).bind fun _ => seeks_indexOf _
  have pair (name descriptor : String) : Seeks (resolveNameAndType indexOf name descriptor)
      fun pool => resolveNameAndType pool.seek name descriptor :=
    (text name).bind fun _ => (text descriptor).bind fun _ => seeks_indexOf _
  rw [run_eq_resolve]
  cases r with
  | utf8 s | named s body => exact text s
  | integer value | long value => exact seeks_indexOf _
  | cls name => exact cls name
  | string s => exact (text s).bind fun _ => seeks_indexOf _
  | nameAndType name descriptor => exact pair name descriptor
  | field owner name descriptor | method owner name descriptor ofInterface =>
    exact (cls owner).bind fun _ => (pair name descriptor).bind fun _ => seeks_indexOf _

def Asked (pool pool' : Pool) : Prop := ∃ (r : Request) (result : Except Error ConstantIndex),
  r.run.run pool = (result, pool')

def Later : Pool → Pool → Prop := Relation.ReflTransGen Asked

/-- The pool was empty or was read, and has been asked for constants since. -/
def Arisen (pool : Pool) : Prop :=
  ∃ start, (start = empty ∨ ∃ input rest, decoder input = .ok (start, rest)) ∧ start.Later pool

theorem Asked.grows (asked : pool.Asked pool') (built : pool.Built) :
    pool'.Built ∧ pool.Grows pool' := by
  obtain ⟨r, result, ran⟩ := asked
  have ends := r.seeks.ends built ran
  obtain ⟨cs, grown, _⟩ := ends.added
  exact ⟨ends.built, cs, grown⟩

theorem Later.grows (more : pool.Later later) (built : pool.Built) :
    later.Built ∧ pool.Grows later := by
  induction more with
  | refl => exact ⟨built, .refl pool⟩
  | tail _ asked ih =>
    obtain ⟨built, grows⟩ := ih
    obtain ⟨built', grows'⟩ := asked.grows built
    exact ⟨built', grows.trans grows'⟩

theorem built_of_decoder {input rest : List UInt8} (ok : decoder input = .ok (pool, rest)) :
    pool.Built := by
  obtain ⟨declared, small, least, ⟨cs, rfl, _⟩, _⟩ := decoder_eq_ok ok
  exact ⟨⟨cs, rfl⟩, by omega⟩

theorem Arisen.built (arisen : pool.Arisen) : pool.Built := by
  obtain ⟨start, rfl | ⟨input, rest, ok⟩, more⟩ := arisen
  · exact (more.grows built_empty).1
  · exact (more.grows (built_of_decoder ok)).1

structure Keeps (pool later : Pool) : Prop where
  get? : ∀ i c, pool.get? i = some c → later.get? i = some c
  first? : ∀ c i, pool.first? c = some i → later.first? c = some i

theorem Grows.keeps (grows : pool.Grows later) (built : pool.Built) (later_built : later.Built) :
    pool.Keeps later :=
  ⟨fun _ _ => grows.get? built, fun _ _ => grows.first? built later_built⟩

/-- A request leaves everything where it is, adds only what the pool lacks, and fails only when the
next constant it needs would take the next index past 65535. What it finds stays found, whatever is
requested later. -/
theorem Arisen.keeps_and_finds {result : Except Error ConstantIndex} (arisen : now.Arisen)
    (ran : r.run.run now = (result, after)) (more : after.Later later) :
    now.Keeps later ∧ (∀ c, later.index[c.key]? = later.first? c) ∧
    (∃ added, after.entries.toList = now.entries.toList ++ added ∧ now.Fresh added) ∧
    (∀ i, result = .ok i → r.IsAt later i ∧ r.run.run later = (.ok i, later)) ∧
    ∀ e, result = .error e → e = .poolFull after.entries.next ∧
      ∃ c, r.resolve after.seek = .error c ∧ c ∉ after.entries.toList ∧
        65535 < after.entries.next + width c := by
  have ends := r.seeks.ends arisen.built ran
  obtain ⟨cs, rfl, fresh⟩ := ends.added
  obtain ⟨later_built, grows⟩ := more.grows ends.built
  refine ⟨((Grows.trans ⟨cs, rfl⟩ grows).keeps arisen.built later_built),
    later_built.index_eq_first?, ⟨cs, arisen.built.toList_foldl_push cs, fresh⟩,
    fun i same => ?_, fun e same => ?_⟩
  · have found := r.seeks.stays ends.built later_built grows (ends.ok i same)
    exact ⟨r.isAt_of_resolve later_built found, r.seeks.known later_built found⟩
  · obtain ⟨full, c, missing, wide⟩ := ends.failed e same
    exact ⟨full, c, missing, wide⟩

/-- A pool with the same text twice, the later one named by a class. -/
def twins : Pool := ofList [.utf8 [65], .utf8 [65], .cls 2]

theorem Fits.arisen (fits : pool.Fits) : pool.Arisen :=
  ⟨pool, .inr ⟨pool.encode ++ [], [], reads fits []⟩, .refl⟩

theorem twins_arisen : twins.Arisen :=
  Fits.arisen ⟨⟨_, rfl, by simp [Constant.Fits]⟩, by decide⟩

theorem Arisen.keeps_and_finds_twins :
    twins.Arisen ∧ (Request.cls "A").run.run twins = (.ok 4, twins.push (.cls 1)) ∧
    (Request.cls "A").run.run ((twins.push (.cls 1)).push (.utf8 [66])) =
      (.ok 4, (twins.push (.cls 1)).push (.utf8 [66])) := by
  have ran : (Request.cls "A").run.run twins = (.ok 4, twins.push (.cls 1)) := by rfl
  have more : (twins.push (.cls 1)).Later ((twins.push (.cls 1)).push (.utf8 [66])) :=
    .single ⟨.utf8 "B", .ok 5, by rfl⟩
  obtain ⟨_, _, _, found, _⟩ := twins_arisen.keeps_and_finds ran more
  have again := (found 4 rfl).2
  exact ⟨twins_arisen, ran, again⟩

end StackMaps.Pool
