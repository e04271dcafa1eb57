import StackMaps.Proofs.Analysis.Sound
import StackMaps.Proofs.Flow.Termination

/-! Whether the data flow of every method comes to an end depends on the classes: it does if no two
classes are each other's superclasses. If two are, there is a method whose data flow never ends, as
the merge of the two is whichever arrives last. -/

namespace StackMaps

variable {H : Hierarchy} {a b : BinaryName} {st : FlowState}

/-- Puts one of its arguments in the third local, then the other one, and so on. -/
def swapCode : Code :=
  ⟨1, 3, [0x2a, 0x4d, 0x03, 0x99, 0, 8, 0x2b, 0x4d, 0xa7, 0xff, 0xfa, 0x2a, 0x4d, 0xa7, 0xff, 0xf5],
    [], []⟩

def swapSignature (a b : BinaryName) : Signature :=
  ⟨.object, "swap", ⟨[.ref (.object a), .ref (.object b)], none⟩, true⟩

def swapCopy (offset : Nat) (slot : UInt16) : List Located :=
  [⟨offset, offset + 1, .straight (.load .reference slot)⟩,
    ⟨offset + 1, offset + 2, .straight (.store .reference 2)⟩]

def swapEntry : Block := ⟨0, 2, 0, swapCopy 0 0⟩

def swapLoop : Block :=
  ⟨2, 6, 2, [⟨2, 3, .straight (.const .int 0)⟩, ⟨3, 6, .branch (.ifInt .eq 11)⟩]⟩

def swapLeft : Block := ⟨6, 11, 4, swapCopy 6 1 ++ [⟨8, 11, .branch (.goto 2)⟩]⟩

def swapRight : Block := ⟨11, 16, 7, swapCopy 11 0 ++ [⟨13, 16, .branch (.goto 2)⟩]⟩

def swapBlocks : List Block := [swapEntry, swapLoop, swapLeft, swapRight]

def swapGraph (a b : BinaryName) : FlowGraph :=
  .ofInstructions (swapSignature a b) swapCode .empty (swapBlocks.flatMap (·.code)) []

theorem swapCode_instructions : swapCode.instructions = .ok (swapBlocks.flatMap (·.code)) := by
  decide +kernel

theorem swapCode_blocks : swapCode.blocks (swapBlocks.flatMap (·.code)) = swapBlocks := by
  decide +kernel

theorem ofCode_swap : FlowGraph.ofCode (swapSignature a b) swapCode .empty = .ok (swapGraph a b) := by
  rw [FlowGraph.ofCode, swapCode_instructions]
  rfl

theorem getElem?_swap (block : Block) (there : block ∈ swapBlocks) :
    (swapGraph a b).blocks[block.start]? = some block := by
  have holds := Code.instructions_eq_ok.1 swapCode_instructions
  refine holds.getElem?_blocks.2 ⟨?_, rfl⟩
  rw [swapCode_blocks]
  exact there

def swapFrame (a b : BinaryName) (t : FlowType) : Frame :=
  ⟨[.object (.object a), .object (.object b), t], []⟩

def heldFrame (a b c : BinaryName) : Frame := swapFrame a b (.object (.object c))

theorem initialFrame_swap :
    (swapSignature a b).initialFrame swapCode.maxLocals = .ok (swapFrame a b .top) := rfl

theorem visit_swapEntry (st : FlowState) (t : FlowType) : ∃ height,
    answer ((swapGraph a b).visit H.source swapEntry (swapFrame a b t) st) =
      answer (FlowState.arriveAll H.source (heldFrame a b a) { st with maxStack := height } [2]) :=
  ⟨_, rfl⟩

theorem visit_swapLoop (st : FlowState) (t : FlowType) : ∃ height,
    answer ((swapGraph a b).visit H.source swapLoop (swapFrame a b t) st) =
      answer (FlowState.arriveAll H.source (swapFrame a b t) { st with maxStack := height } [11, 6]) :=
  ⟨_, rfl⟩

theorem visit_swapLeft (st : FlowState) (t : FlowType) : ∃ height,
    answer ((swapGraph a b).visit H.source swapLeft (swapFrame a b t) st) =
      answer (FlowState.arriveAll H.source (heldFrame a b b) { st with maxStack := height } [2]) :=
  ⟨_, rfl⟩

theorem visit_swapRight (st : FlowState) (t : FlowType) : ∃ height,
    answer ((swapGraph a b).visit H.source swapRight (swapFrame a b t) st) =
      answer (FlowState.arriveAll H.source (heldFrame a b a) { st with maxStack := height } [2]) :=
  ⟨_, rfl⟩

abbrev OneOf (a b c : BinaryName) : Prop := c = a ∨ c = b

theorem merge_heldFrame (circle : H.Circle a b) {c d : BinaryName} (onec : OneOf a b c)
    (oned : OneOf a b d) (offset : Nat) :
    answer (Frame.merge H.source offset (heldFrame a b c) (heldFrame a b d)) =
      .ok (heldFrame a b d) := by
  have same : ∀ t : FlowType, answer (FlowType.mergeLocal H.source t t) = .ok t := fun t => by
    rw [FlowType.answer_mergeLocal, FlowType.answer_merge, if_pos rfl]
    rfl
  have third : answer (FlowType.mergeLocal H.source (.object (.object c)) (.object (.object d))) =
      .ok (.object (.object d)) := by
    by_cases equal : c = d
    · rw [equal, same]
    · have common : answer (H.source.commonSuperclass c d) = .ok d := by
        obtain rfl | rfl := onec
        · obtain rfl | rfl := oned
          · exact absurd rfl equal
          · exact circle.common
        · obtain rfl | rfl := oned
          · exact circle.symm.common
          · exact absurd rfl equal
      have merges : FlowType.Merges H (.object (.object c)) (.object (.object d))
          (.object (.object d)) := by
        refine .object (by simpa using equal) ?_
        rw [RefType.answer_merge, if_neg (by simpa using equal)]
        simp only [common]
        rfl
      rw [FlowType.answer_mergeLocal, merges.answer_eq]
      rfl
  have merges : Frame.Merges H (heldFrame a b c) (heldFrame a b d) (heldFrame a b d) :=
    ⟨.cons (same _) (.cons (same _) (.cons third .nil)), .nil⟩
  have lengths : (heldFrame a b c).locals.length = (heldFrame a b d).locals.length := by
    simp only [heldFrame, swapFrame, List.length_cons]
  exact (Frame.merge_eq_ok lengths).2 merges

/-- Nothing has arrived at a place, or a frame that holds one of the classes. -/
def Holding (a b : BinaryName) (st : FlowState) (n : Nat) (held : Option BinaryName) : Prop :=
  (∀ c, held = some c → OneOf a b c) ∧ st.entry[n]? = held.map (heldFrame a b)

theorem arrive_heldFrame (circle : H.Circle a b) {target : Nat} {held : Option BinaryName}
    (holding : Holding a b st target held) {d : BinaryName} (oned : OneOf a b d) :
    ∃ st', answer (FlowState.arrive H.source target (heldFrame a b d) st) = .ok st' ∧
      (∀ n : Nat, st'.entry[n]? = if n = target then some (heldFrame a b d) else st.entry[n]?) ∧
      st'.pending = if held = some d then st.pending else insertSorted target st.pending := by
  obtain ⟨one, there⟩ := holding
  cases held with
  | none =>
    refine ⟨_, FlowState.arrive_none there, fun n => FlowState.getElem?_assign, ?_⟩
    simp [FlowState.assign]
  | some c =>
    have arrives := (FlowState.arrive_some there :
      answer (FlowState.arrive H.source target (heldFrame a b d) st) = _)
    rw [merge_heldFrame circle (one c rfl) oned] at arrives
    by_cases equal : c = d
    · subst equal
      refine ⟨st, ?_, fun n => ?_, by simp⟩
      · rw [arrives]
        simp [pure, bind, Except.bind, Except.pure]
      · split
        next here => rw [here, there, Option.map_some]
        next => rfl
    · have other : heldFrame a b d ≠ heldFrame a b c := by
        intro same
        simp only [heldFrame, swapFrame, Frame.mk.injEq, List.cons.injEq,
          VerificationType.object.injEq, RefType.object.injEq] at same
        exact equal same.1.2.2.1.symm
      refine ⟨st.assign target (heldFrame a b d), ?_, fun n => FlowState.getElem?_assign, ?_⟩
      · rw [arrives]
        simp [pure, bind, Except.bind, Except.pure, other]
      · simp [FlowState.assign, equal]

theorem Holding.arrive (circle : H.Circle a b) {target : Nat} {held : Option BinaryName}
    (holding : Holding a b st target held) {d : BinaryName} (oned : OneOf a b d) :
    ∃ st', answer (FlowState.arrive H.source target (heldFrame a b d) st) = .ok st' ∧
      Holding a b st' target (some d) ∧
      (∀ n held', n ≠ target → Holding a b st n held' → Holding a b st' n held') ∧
      st'.pending = if held = some d then st.pending else insertSorted target st.pending := by
  obtain ⟨st', arrives, entry, pending⟩ := arrive_heldFrame circle holding oned
  refine ⟨st', arrives, ⟨?_, ?_⟩, fun n held' apart other => ⟨other.1, ?_⟩, pending⟩
  · rintro _ ⟨⟩
    exact oned
  · rw [entry, if_pos rfl]
    rfl
  · rw [entry, if_neg apart]
    exact other.2

inductive Swapping (a b : BinaryName) (st : FlowState) : Prop
  | loop {c : BinaryName} {other : Option BinaryName} {rest : List Nat}
      (loop : Holding a b st 2 (some c)) (left : Holding a b st 6 other)
      (right : Holding a b st 11 other) (different : other ≠ some c)
      (pending : st.pending = 2 :: rest) (short : rest = [] ∨ rest = [11])
  | left {c : BinaryName} (loop : Holding a b st 2 (some c)) (left : Holding a b st 6 (some c))
      (right : Holding a b st 11 (some c)) (pending : st.pending = [6, 11])
  | right (loop : Holding a b st 2 (some b)) (left : Holding a b st 6 (some b))
      (right : Holding a b st 11 (some b)) (pending : st.pending = [11])

def Goes (H : Hierarchy) (g : FlowGraph) (I : FlowState → Prop) (st : FlowState) : Prop :=
  ∃ start rest block f st', st.pending = start :: rest ∧ g.blocks[start]? = some block ∧
    st.entry[start]? = some f ∧ answer (g.visit H.source block f { st with pending := rest }) = .ok st' ∧
    I st'

theorem Swapping.goes (circle : H.Circle a b) (swapping : Swapping a b st) :
    Goes H (swapGraph a b) (Swapping a b) st := by
  cases swapping with
  | @loop c other rest loop left right different pending short =>
    obtain ⟨height, visit⟩ := visit_swapLoop (H := H) (a := a) (b := b)
      { st with pending := rest } (.object (.object c))
    have one : OneOf a b c := loop.1 c rfl
    have right : Holding a b { st with pending := rest, maxStack := height } 11 other := right
    obtain ⟨st₁, first, right, keeps, pending₁⟩ := right.arrive circle one
    obtain ⟨st₂, second, left, keeps', pending₂⟩ := (keeps 6 other (by decide) left).arrive circle one
    refine ⟨2, rest, swapLoop, heldFrame a b c, st₂, pending, getElem?_swap swapLoop (by simp [swapBlocks]),
      loop.2, ?_, .left (keeps' 2 _ (by decide) (keeps 2 _ (by decide) loop)) left
        (keeps' 11 _ (by decide) right) ?_⟩
    · rw [heldFrame, visit]
      exact answer_bind_eq_ok.2 ⟨st₁, first, answer_bind_eq_ok.2 ⟨st₂, second, rfl⟩⟩
    · rw [pending₂, if_neg different, pending₁, if_neg different]
      obtain rfl | rfl := short <;> rfl
  | @left c loop left right pending =>
    obtain ⟨height, visit⟩ := visit_swapLeft (H := H) (a := a) (b := b)
      { st with pending := [11] } (.object (.object c))
    have loop : Holding a b { st with pending := [11], maxStack := height } 2 (some c) := loop
    obtain ⟨st₁, first, loop', keeps, pending₁⟩ := loop.arrive circle (d := b) (.inr rfl)
    refine ⟨6, [11], swapLeft, heldFrame a b c, st₁, pending, getElem?_swap swapLeft (by simp [swapBlocks]),
      left.2, ?_, ?_⟩
    · rw [heldFrame, visit]
      exact answer_bind_eq_ok.2 ⟨st₁, first, rfl⟩
    · have left := keeps 6 _ (by decide) left
      have right := keeps 11 _ (by decide) right
      obtain rfl | rfl := loop.1 c rfl
      · exact .loop loop' left right (by simpa using circle.different)
          (by rw [pending₁, if_neg (by simpa using circle.different)]; rfl) (.inr rfl)
      · exact .right loop' left right (by rw [pending₁, if_pos rfl])
  | right loop left right pending =>
    obtain ⟨height, visit⟩ := visit_swapRight (H := H) (a := a) (b := b)
      { st with pending := [] } (.object (.object b))
    have loop : Holding a b { st with pending := [], maxStack := height } 2 (some b) := loop
    obtain ⟨st₁, first, loop, keeps, pending₁⟩ := loop.arrive circle (d := a) (.inl rfl)
    refine ⟨11, [], swapRight, heldFrame a b b, st₁, pending, getElem?_swap swapRight (by simp [swapBlocks]),
      right.2, ?_, ?_⟩
    · rw [heldFrame, visit]
      exact answer_bind_eq_ok.2 ⟨st₁, first, rfl⟩
    · exact .loop loop (keeps 6 _ (by decide) left) (keeps 11 _ (by decide) right)
        (by simpa using circle.different.symm)
        (by rw [pending₁, if_neg (by simpa using circle.different.symm)]; rfl) (.inl rfl)

theorem settle_eq_none {g : FlowGraph} {I : FlowState → Prop} (goes : ∀ st, I st → Goes H g I st)
    (visits : Nat) (holds : I st) : answer (g.settle H.source visits st) = .ok none := by
  induction visits generalizing st with
  | zero =>
    obtain ⟨start, rest, _, _, _, waiting, _⟩ := goes st holds
    rw [FlowGraph.settle]
    simp [waiting]
  | succ visits ih =>
    obtain ⟨start, rest, block, f, st', waiting, found, there, visited, holds'⟩ := goes st holds
    rw [FlowGraph.settle]
    simp only [waiting, found, there]
    exact answer_bind_eq_ok.2 ⟨st', visited, ih holds'⟩

theorem goes_entering (circle : H.Circle a b) :
    Goes H (swapGraph a b) (Swapping a b) (.entering (swapFrame a b .top)) := by
  obtain ⟨height, visit⟩ := visit_swapEntry (H := H) (a := a) (b := b)
    { FlowState.entering (swapFrame a b .top) with pending := [] } .top
  have fresh : ∀ n : Nat, n ≠ 0 → Holding a b
      { FlowState.entering (swapFrame a b .top) with pending := [], maxStack := height } n none :=
    fun n other => ⟨by simp, by rw [FlowState.getElem?_entering, if_neg other]; rfl⟩
  obtain ⟨st₁, first, loop, keeps, pending₁⟩ :=
    (fresh 2 (by decide)).arrive circle (d := a) (.inl rfl)
  refine ⟨0, [], swapEntry, swapFrame a b .top, st₁, rfl,
    getElem?_swap swapEntry (by simp [swapBlocks]), FlowState.getElem?_entering, ?_, ?_⟩
  · rw [visit]
    exact answer_bind_eq_ok.2 ⟨st₁, first, rfl⟩
  · exact .loop loop (keeps 6 _ (by decide) (fresh 6 (by decide)))
      (keeps 11 _ (by decide) (fresh 11 (by decide))) (by simp) pending₁ (.inl rfl)

/-- The data flow of the method never ends. -/
theorem settle_swap (circle : H.Circle a b) (visits : Nat) :
    answer ((swapGraph a b).settle H.source visits (.entering (swapFrame a b .top))) = .ok none := by
  refine settle_eq_none (I := fun st => st = .entering (swapFrame a b .top) ∨ Swapping a b st)
    (fun st state => ?_) visits (.inl rfl)
  have goes : Goes H (swapGraph a b) (Swapping a b) st := by
    obtain rfl | swapping := state
    · exact goes_entering circle
    · exact swapping.goes circle
  obtain ⟨start, rest, block, f, st', waiting, found, there, visited, swapping⟩ := goes
  exact ⟨start, rest, block, f, st', waiting, found, there, visited, .inr swapping⟩

/-- The data flow settles, or fails, whenever it is given enough visits. -/
def ClassGraph.Ends (graph : ClassGraph) (l : FixedLoader) (g : FlowGraph) (initial : Frame) : Prop :=
  ∃ least, ∀ visits, least ≤ visits →
    graph.answer (g.settle (graph.source l.loader) visits (.entering initial)) ≠ .ok none

/-- The data flow of every method comes to an end exactly if no two classes are each other's
superclasses. -/
theorem ClassGraph.Built.ends_iff {l : FixedLoader} {graph : ClassGraph} (built : graph.Built l) :
    (∀ signature code pool g initial, FlowGraph.ofCode signature code pool = .ok g →
      signature.initialFrame code.maxLocals = .ok initial → graph.Ends l g initial) ↔
      ¬ ∃ a b, (graph.hierarchy l).Circle a b := by
  have settles : ∀ (g : FlowGraph) visits st, graph.answer (g.settle (graph.source l.loader) visits st) =
      StackMaps.answer (g.settle (graph.hierarchy l).source visits st) := fun g visits st =>
    ClassGraph.answer_eq (g.settle_lazily (HeaderSource.lazily_source graph) visits st)
  constructor
  · rintro ends ⟨a, b, circle⟩
    obtain ⟨least, ends⟩ := ends _ _ _ _ _ (ofCode_swap (a := a) (b := b)) initialFrame_swap
    refine ends least (Nat.le_refl _) ?_
    rw [settles]
    exact settle_swap circle least
  · intro apart signature code pool g initial ok entered
    refine ⟨Analysis.visitsNeeded (graph.hierarchy l).bound signature code pool, fun visits enough => ?_⟩
    rw [settles]
    exact FlowGraph.settle_ne_none_of_apart built.isRooted
      (fun a b circle => apart ⟨a, b, circle⟩) ok entered enough

def hen : BinaryName := ⟨"farm/Hen", by decide +kernel⟩
def egg : BinaryName := ⟨"farm/Egg", by decide +kernel⟩

/-- The standard classes, and two that say of each other that they are its superclass. -/
def henAndEgg : ClassGraph :=
  (ClassGraph.standard.insert ⟨hen, some egg, [], .ofBits 0x0021⟩).insert
    ⟨egg, some hen, [], .ofBits 0x0021⟩

theorem ClassGraph.Built.ends_iff_henAndEgg : henAndEgg.Built .empty ∧
    ¬ ∀ signature code pool g initial, FlowGraph.ofCode signature code pool = .ok g →
      signature.initialFrame code.maxLocals = .ok initial → henAndEgg.Ends .empty g initial := by
  have built : henAndEgg.Built .empty := .insert _ (.insert _ .standard)
  refine ⟨built, fun ends => built.ends_iff.1 ends ⟨hen, egg, ?_⟩⟩
  have up : (henAndEgg.hierarchy .empty).Extends hen egg := ⟨_, rfl, rfl⟩
  have down : (henAndEgg.hierarchy .empty).Extends egg hen := ⟨_, rfl, rfl⟩
  exact ⟨by decide, by decide +kernel, by decide +kernel, up.inherits (.refl _), down.inherits (.refl _)⟩

end StackMaps
