import Mathlib.Logic.Equiv.Basic
import StackMaps.Proofs.Flow.Entered
import StackMaps.Proofs.Flow.Merged
import StackMaps.Proofs.Frame.Made
import StackMaps.Proofs.Rebuild.Expand

/-! Objects under construction are never confused. A `new` does not look for older objects of its
own, so this rests on the loop: a block gets its first frame before any of its instructions has been
checked, and a merge never adds an object under construction to the frame that was there. -/

namespace StackMaps

open MonadAttach LawfulMonadAttach Relation

variable {m : Type → Type} [Monad m] [LawfulMonad m] [MonadAttach m] [LawfulMonadAttach m]
  {s : HeaderSource m} {g : FlowGraph} {b : Block} {f out initial : Frame} {st st' : FlowState}
  {moment moment' : Moment} {target n : Nat} {object : NewObject}

theorem Frame.mem_made_of_merge {existing incoming merged : Frame}
    (returns : CanReturn (Frame.merge s n existing incoming) merged) (there : object ∈ merged.made) :
    object ∈ existing.made := by
  obtain ⟨locals, stack⟩ := mergedBy_of_merge returns
  obtain there | there := mem_made.1 there
  · obtain ⟨x, own, y, _, merges⟩ := locals.of_mem there
    obtain same | ⟨rfl, _⟩ | ⟨⟨_, same⟩, _⟩ := FlowType.mergeLocal_returns merges
    · cases same
    · exact mem_made.2 (.inl (List.mem_of_mem_take own))
    · cases same
  · obtain ⟨x, own, y, _, merges⟩ := stack.of_mem there
    obtain ⟨rfl, _⟩ | ⟨⟨_, same⟩, _⟩ := FlowType.merge_returns merges
    · exact mem_made.2 (.inr own)
    · cases same

open FlowState

namespace FlowGraph

structure IsLaidOut (g : FlowGraph) : Prop where
  start : ∀ (n : Nat) (b : Block), g.blocks[n]? = some b → b.start = n
  apart : ∀ (n n' : Nat) (b b' : Block) l l', g.blocks[n]? = some b → g.blocks[n']? = some b' →
    l ∈ b.code → l' ∈ b'.code → l.offset = l'.offset → n = n'
  ordered : ∀ (n : Nat) (b : Block), g.blocks[n]? = some b → b.code.Pairwise fun l l' => l.offset < l'.offset
  short : ∀ (n : Nat) (b : Block) l, g.blocks[n]? = some b → l ∈ b.code → l.offset < 65536

theorem isLaidOut_of_ofCode {signature : Signature} {code : Code} {pool : Pool}
    (ok : FlowGraph.ofCode signature code pool = .ok g) (short : code.bytes.length ≤ 65535) :
    g.IsLaidOut := by
  obtain ⟨located, clauses, holds, _, rfl⟩ := FlowGraph.ofCode_eq_ok.1 ok
  have bounds {b : Block} {l : Located} (block : b ∈ code.blocks located) (there : l ∈ b.code) :
      b.start ≤ l.offset ∧ l.offset < b.stop ∧ l.offset < 65536 := by
    obtain ⟨front, piece, back, whole, start, stop, decodes⟩ := holds.block_decodes block
    have inside := decodes.bounds there
    have size := congrArg List.length whole
    simp only [List.length_append] at size
    omega
  have separate : (code.blocks located).Pairwise fun b b' => b.stop ≤ b'.start ∨ b'.stop ≤ b.start :=
    holds.pairwise.imp .inl
  have symmetric : Std.Symm fun b b' : Block => b.stop ≤ b'.start ∨ b'.stop ≤ b.start :=
    ⟨fun _ _ => Or.symm⟩
  constructor
  · exact fun n b block => (holds.getElem?_blocks.1 block).2
  · intro n n' b b' l l' block block' there there' same
    obtain ⟨member, rfl⟩ := holds.getElem?_blocks.1 block
    obtain ⟨member', rfl⟩ := holds.getElem?_blocks.1 block'
    have inside := bounds member there
    have inside' := bounds member' there'
    by_contra differ
    have := separate.forall member member' fun same => differ (congrArg Block.start same)
    omega
  · intro n b block
    obtain ⟨_, _, _, _, _, _, decodes⟩ := holds.block_decodes (holds.getElem?_blocks.1 block).1
    refine decodes.pairwise.imp_of_mem fun {l l'} there _ before => ?_
    have := decodes.bounds there
    omega
  · exact fun n b l block there => (bounds (holds.getElem?_blocks.1 block).1 there).2.2

def Made (g : FlowGraph) (entry : Std.TreeMap Nat Frame) (object : NewObject) : Prop :=
  ∃ (n : Nat) (b : Block) (l : Located) (k : ConstantIndex), n ∈ entry ∧ g.blocks[n]? = some b ∧
    l ∈ b.code ∧ l.instruction = .straight (.new k) ∧ l.offset = object.offset.toNat ∧
    g.context.classType k = .ok object.type

def Known (g : FlowGraph) (entry : Std.TreeMap Nat Frame) (f : Frame) : Prop :=
  ∀ object ∈ f.made, g.Made entry object

/-- None of the instructions makes what is under construction in the frame. -/
def Fresh (code : List Located) (f : Frame) : Prop :=
  ∀ object ∈ f.made, ∀ l ∈ code, object.offset.toNat ≠ l.offset

/-- In the frame of a block are objects of other blocks only. -/
def Tracks (g : FlowGraph) (entry : Std.TreeMap Nat Frame) : Prop :=
  ∀ (n : Nat) (f : Frame), entry[n]? = some f →
    g.Known entry f ∧ ∀ b, g.blocks[n]? = some b → Fresh b.code f

def Tracked (g : FlowGraph) : Moment → Prop
  | .between st => g.Tracks st.entry
  | .before _ f rest st => g.Tracks st.entry ∧ g.Known st.entry f ∧ Fresh rest f
  | .raising _ f after rest _ st | .raised _ f after rest _ _ st =>
    g.Tracks st.entry ∧ g.Known st.entry f ∧ g.Known st.entry after ∧ Fresh rest after
  | .leaving _ f _ st => g.Tracks st.entry ∧ g.Known st.entry f

theorem Known.admits (known : g.Known st.entry f) (admits : Admits target st st') :
    g.Known st'.entry f := fun object there => by
  obtain ⟨n, b, l, k, entered, rest⟩ := known object there
  exact ⟨n, b, l, k, (admits.entry n).2 (.inr entered), rest⟩

theorem Known.atHandler {entry : Std.TreeMap Nat Frame} (known : g.Known entry f) (r : RefType) :
    g.Known entry (.atHandler f.locals r) :=
  fun object there => known object (Frame.mem_made_atHandler there)

/-- The first frame of a block has no object of the block, and later ones have no more objects. -/
theorem Tracks.arrive (laid : g.IsLaidOut) (tracks : g.Tracks st.entry) (known : g.Known st.entry out)
    (arrives : CanReturn (st.arrive s target out) st') : g.Tracks st'.entry := by
  have admits := admits_of_arrive arrives
  have assigned {f : Frame} (own : g.Known st.entry f)
      (fresh : ∀ b, g.blocks[target]? = some b → Fresh b.code f) (same : st' = st.assign target f) :
      g.Tracks st'.entry := by
    intro n f' there
    rw [same, getElem?_assign] at there
    split at there
    next here =>
      cases there
      subst here
      exact ⟨own.admits admits, fresh⟩
    next => exact (tracks n f' there).imp_left fun known => known.admits admits
  obtain ⟨none, same⟩ | ⟨existing, merged, there, merges, ⟨_, rfl⟩ | ⟨_, same⟩⟩ := arrive_returns arrives
  · refine assigned known (fun b block object there l own same => ?_) same
    obtain ⟨n, b', l', k, entered, block', there', _, offset, _⟩ := known object there
    obtain rfl := laid.apart _ _ b' b l' l block' block there' own (offset.trans same)
    obtain ⟨f, there⟩ := mem_entry.1 entered
    cases none.symm.trans there
  · exact tracks
  · obtain ⟨own, fresh⟩ := tracks target existing there
    have fewer {object : NewObject} (there : object ∈ merged.made) : object ∈ existing.made :=
      Frame.mem_made_of_merge merges there
    exact assigned (fun object there => own object (fewer there))
      (fun b block object there => fresh b block object (fewer there)) same

theorem Known.step (laid : g.IsLaidOut) {located : Located} {rest : List Located} {after : Frame}
    {entry : Std.TreeMap Nat Frame} (inside : g.Inside b (located :: rest) entry)
    (known : g.Known entry f) (fresh : Fresh (located :: rest) f)
    (step : g.stepAt located f = .ok after) : g.Known entry after ∧ Fresh rest after := by
  have there : located ∈ b.code := inside.suffix.subset List.mem_cons_self
  have offset : (UInt16.ofNat located.offset).toNat = located.offset :=
    UInt16.toNat_ofNat_of_lt' (laid.short _ b located inside.block there)
  have ordered := (laid.ordered _ b inside.block).sublist inside.suffix.sublist
  refine ⟨fun object own => ?_, fun object own l later => ?_⟩
  · obtain old | ⟨k, r, new, named, rfl⟩ := Frame.made_of_step (stepAt_eq_ok.1 step) own
    · exact known object old
    · exact ⟨b.start, b, located, k, inside.entered, inside.block, there, new, offset.symm, named⟩
  · obtain old | ⟨k, r, new, named, rfl⟩ := Frame.made_of_step (stepAt_eq_ok.1 step) own
    · exact fresh object old l (List.mem_cons_of_mem _ later)
    · have before := (List.pairwise_cons.1 ordered).1 l later
      simp only [offset]
      omega

theorem tracked_move (laid : g.IsLaidOut) (move : g.Moves s moment moment') (sited : g.Sited moment)
    (tracked : g.Tracked moment) : g.Tracked moment' := by
  cases move with
  | visit next block entry =>
    obtain ⟨known, fresh⟩ := tracked _ _ entry
    exact ⟨tracked, known, fresh _ block⟩
  | skip => exact tracked
  | check step =>
    obtain ⟨tracks, known, fresh⟩ := tracked
    exact ⟨tracks, known, known.step laid sited fresh step⟩
  | @raise _ _ _ _ _ _ st _ arrives =>
    obtain ⟨tracks, known, known', fresh⟩ := tracked
    have admits := (admits_of_arrive arrives).of_see
    have tracks : g.Tracks (st.see 1).entry := tracks
    have arrived := tracks.arrive laid (known.atHandler _) arrives
    exact ⟨arrived, known.admits admits, known'.admits admits, fresh⟩
  | raiseAfter arrives =>
    obtain ⟨tracks, known, known', fresh⟩ := tracked
    have admits := admits_of_arrive arrives
    exact ⟨tracks.arrive laid (known'.atHandler _) arrives, known.admits admits, known'.admits admits, fresh⟩
  | goOn => exact ⟨tracked.1, tracked.2.2⟩
  | leave => exact ⟨tracked.1, tracked.2.1⟩
  | pass arrives =>
    obtain ⟨tracks, known⟩ := tracked
    exact ⟨tracks.arrive laid known arrives, known.admits (admits_of_arrive arrives)⟩
  | left => exact tracked.1
  | empty => exact tracked.1

theorem tracked_of_meets (laid : g.IsLaidOut) (plain : initial.made = [])
    (meets : g.Meets s initial moment) : g.Tracked moment := by
  induction meets with
  | refl =>
    intro n f there
    rw [getElem?_entering] at there
    split at there
    next =>
      cases there
      have none (object : NewObject) : object ∉ initial.made := by simp [plain]
      exact ⟨fun object own => absurd own (none object), fun b _ object own => absurd own (none object)⟩
    next => cases there
  | tail before move ih => exact tracked_move laid move (sited_of_meets laid.start before) ih

end FlowGraph

inductive Stride
  /-- An instruction. -/
  | through (located : Located)
  /-- The entry of a handler. -/
  | into (type : RefType)

def Stride.Makes (offset : UInt16) : Stride → Prop
  | .through located => (∃ k, located.instruction = .straight (.new k)) ∧ .ofNat located.offset = offset
  | .into _ => False

namespace FlowGraph

def trace (g : FlowGraph) (f : Frame) : List Stride → Except Error Frame
  | [] => .ok f
  | .through located :: way => do trace g (← g.stepAt located f) way
  | .into type :: way => trace g (.atHandler f.locals type) way

/-- The `new` at an offset, checked with a frame, makes an object like no other. -/
structure MakesOne (g : FlowGraph) (located : Located) (f : Frame) : Prop where
  /-- No object of the `new` is there before. -/
  fresh : ∀ object ∈ f.made, object.offset.toNat ≠ located.offset
  /-- One object of the `new` is there afterwards. -/
  one : ∀ after, g.stepAt located f = .ok after →
    after.made.countP (fun object => object.offset.toNat = located.offset) = 1
  /-- From then on, until the `new` is executed again, its objects are those of this execution: with
  another offset for this execution alone, they all have that offset instead. So a constructor that
  is called on one of them makes objects of them and of nothing that was there before. -/
  own : ∀ (after later : Frame) (way : List Stride) (other : UInt16),
    g.stepAt located f = .ok after → g.trace after way = .ok later →
    (∀ object ∈ f.made, object.offset ≠ other) →
    (∀ stride ∈ way, ¬ stride.Makes (.ofNat located.offset) ∧ ¬ stride.Makes other) →
    ∃ after', g.stepAt { located with offset := other.toNat } f = .ok after' ∧
      g.trace after' way = .ok (later.rename (Equiv.swap (.ofNat located.offset) other))

theorem trace_rename {ρ : UInt16 → UInt16} (injective : Function.Injective ρ) {later : Frame}
    {way : List Stride} (fixed : ∀ stride ∈ way, ∀ offset, stride.Makes offset → ρ offset = offset)
    (ok : g.trace f way = .ok later) : g.trace (f.rename ρ) way = .ok (later.rename ρ) := by
  induction way generalizing f with
  | nil =>
    cases ok
    rfl
  | cons stride way ih =>
    obtain ⟨first, others⟩ := List.forall_mem_cons.1 fixed
    cases stride with
    | through located =>
      obtain ⟨after, step, ok⟩ := bind_eq_ok.1 ok
      have moved : ∀ k, located.instruction = .straight (.new k) →
          UInt16.ofNat located.offset = ρ (.ofNat located.offset) :=
        fun k new => (first _ ⟨⟨k, new⟩, rfl⟩).symm
      have step' := Frame.step_rename injective _ moved (stepAt_eq_ok.1 step)
      exact bind_eq_ok.2 ⟨_, stepAt_eq_ok.2 step', ih others ok⟩
    | into type => exact ih others ok

theorem makesOne_of_fresh {located : Located} {k : ConstantIndex}
    (new : located.instruction = .straight (.new k)) (short : located.offset < 65536)
    (fresh : ∀ object ∈ f.made, object.offset.toNat ≠ located.offset) : g.MakesOne located f where
  fresh := fresh
  one after ok := by
    rw [stepAt_eq_ok, new] at ok
    obtain ⟨r, _, _, rfl⟩ := Frame.step_new_eq_ok.1 ok
    have none : f.made.countP (fun object => object.offset.toNat = located.offset) = 0 :=
      List.countP_eq_zero.2 fun object there => by simpa using fresh object there
    rw [Frame.made_push.countP_eq, List.countP_cons, none]
    simp only [UInt16.toNat_ofNat_of_lt' short, decide_true, if_true, Nat.zero_add]
  own after later way other ok onwards unused apart := by
    have injective := (Equiv.swap (UInt16.ofNat located.offset) other).injective
    have stays : f.rename (Equiv.swap (.ofNat located.offset) other) = f := by
      refine Frame.rename_eq_self fun object there => Equiv.swap_apply_of_ne_of_ne ?_ (unused object there)
      intro same
      refine fresh object there ?_
      rw [same, UInt16.toNat_ofNat_of_lt' short]
    have ok' := Frame.step_rename injective other.toNat (fun _ _ => by simp) (stepAt_eq_ok.1 ok)
    rw [stays] at ok'
    refine ⟨_, stepAt_eq_ok.2 ok', trace_rename injective (fun stride there offset makes => ?_) onwards⟩
    obtain ⟨no, no'⟩ := apart stride there
    exact Equiv.swap_apply_of_ne_of_ne (fun same => no (same ▸ makes)) fun same => no' (same ▸ makes)

/-- At all times, a `new` that is about to be checked makes an object like no other, and what is
under construction in the frame of a block was made by a `new` of a block that control can get to, of
the class that this refers to. -/
theorem Meets.makesOne {signature : Signature} {code : Code} {pool : Pool}
    (ready : FlowGraph.ofCode signature code pool = .ok g)
    (entered : signature.initialFrame code.maxLocals = .ok initial)
    (short : code.bytes.length ≤ 65535) (meets : g.Meets s initial moment) :
    (∀ b f located rest st k, moment = .before b f (located :: rest) st →
      located.instruction = .straight (.new k) → g.MakesOne located f) ∧
    ∀ (n : Nat) (f : Frame), moment.state.entry[n]? = some f → ∀ object ∈ f.made,
      ∃ (start : Nat) (b : Block) (located : Located) (k : ConstantIndex), g.Reaches start ∧
        (∃ f', moment.state.entry[start]? = some f') ∧ g.blocks[start]? = some b ∧ located ∈ b.code ∧
        located.instruction = .straight (.new k) ∧ located.offset = object.offset.toNat ∧
        g.context.classType k = .ok object.type := by
  have laid := isLaidOut_of_ofCode ready short
  have plain : initial.made = [] := List.eq_nil_iff_forall_not_mem.2
    (Frame.all_ofMade.1 (Signature.initialFrame_ofMade (Q := fun _ => False) entered))
  have sited := sited_of_meets laid.start meets
  have tracked := tracked_of_meets laid plain meets
  constructor
  · rintro b f located rest st k rfl new
    have there : located ∈ b.code := sited.suffix.subset List.mem_cons_self
    exact makesOne_of_fresh new (laid.short _ b located sited.block there) fun object own =>
      tracked.2.2 object own located List.mem_cons_self
  · have reaches : ∀ n ∈ moment.state.entry, g.Reaches n := by
      cases moment with
      | between => exact sited
      | before => exact sited.reaches
      | _ => exact sited.1.reaches
    have tracks : g.Tracks moment.state.entry := by
      cases moment with
      | between => exact tracked
      | _ => exact tracked.1
    intro n f there object own
    obtain ⟨start, b, located, k, entry, rest⟩ := (tracks n f there).1 object own
    exact ⟨start, b, located, k, reaches start entry, mem_entry.1 entry, rest⟩

def sproutSignature : Signature := ⟨.object, "sprout", ⟨[], none⟩, true⟩

def sproutCode : Code := ⟨1, 0, [0xbb, 0, 2, 0xa7, 0, 3, 0x57, 0xb1], [], []⟩

def sproutPool : Pool := .ofList [.utf8 [0x41], .cls 1]

def ignorant : HeaderSource Id := ⟨fun _ => none, 0⟩

theorem Meets.makesOne_sprout : sproutCode.bytes.length ≤ 65535 ∧ ∃ g initial b rest st moment,
    FlowGraph.ofCode sproutSignature sproutCode sproutPool = .ok g ∧
    sproutSignature.initialFrame sproutCode.maxLocals = .ok initial ∧
    g.Meets ignorant initial (.before b initial (⟨0, 3, .straight (.new 2)⟩ :: rest) st) ∧
    g.MakesOne ⟨0, 3, .straight (.new 2)⟩ initial ∧ g.Meets ignorant initial moment ∧
    ∃ (f : Frame) (object : NewObject), moment.state.entry[6]? = some f ∧ object ∈ f.made ∧
      ∃ (start : Nat) (b : Block) (located : Located), g.Reaches start ∧ g.blocks[start]? = some b ∧
        located ∈ b.code ∧ located.offset = object.offset.toNat := by
  have facts : (do
      let g ← FlowGraph.ofCode sproutSignature sproutCode sproutPool
      let initial ← sproutSignature.initialFrame sproutCode.maxLocals
      let settled ← answer (g.settle ignorant 9 (.entering initial))
      return settled.any fun st => g.blocks[0]?.any (·.code.head? = some ⟨0, 3, .straight (.new 2)⟩) &&
        st.entry[6]?.any (·.made ≠ []) : Except Error Bool) = .ok true := by decide +kernel
  obtain ⟨g, ready, facts⟩ := bind_eq_ok.1 facts
  obtain ⟨initial, entered, facts⟩ := bind_eq_ok.1 facts
  obtain ⟨settled, settles, facts⟩ := bind_eq_ok.1 facts
  have facts := Except.ok.inj facts
  simp only [Option.any_eq_true, Bool.and_eq_true, decide_eq_true_eq] at facts
  obtain ⟨st, rfl, ⟨b, block, head⟩, f, entry, some⟩ := facts
  obtain ⟨rest, code⟩ := List.head?_eq_some_iff.1 head
  obtain ⟨object, there⟩ := List.exists_mem_of_ne_nil _ some
  have visit : g.Meets ignorant initial (.before b initial b.code ⟨_, [], 0⟩) :=
    .single (.visit rfl block (by rw [getElem?_entering, if_pos rfl]))
  have meets : g.Meets ignorant initial (.between st) := (settle_moves settles).1
  obtain ⟨one, _⟩ := Meets.makesOne ready entered (by decide) visit
  obtain ⟨_, known⟩ := Meets.makesOne ready entered (by decide) meets
  obtain ⟨start, b', located, _, reaches, _, block', own, _, offset, _⟩ := known 6 f entry object there
  rw [code] at visit one
  exact ⟨by decide, g, initial, b, rest, _, .between st, ready, entered, visit, one _ _ _ _ _ 2 rfl rfl, meets, f,
    object, entry, there, start, b', located, reaches, block', own, offset⟩

end FlowGraph

end StackMaps
