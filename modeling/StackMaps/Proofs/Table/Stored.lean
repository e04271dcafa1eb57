import Mathlib.Data.List.Basic
import StackMaps.Flow.Rebuild
import StackMaps.Proofs.ClassFile.Adding
import StackMaps.Proofs.Descriptor
import StackMaps.Proofs.Frame.Paired
import StackMaps.Proofs.Table.Limits
import StackMaps.Proofs.Table.Shortest

/-! A frame that is stored is read again, and the entry that leads from one stored frame to the next
leads from what is read of the one to what is read of the other. -/

namespace StackMaps

namespace VerificationType

variable {κ υ υ' : Type}

theorem width_mapMade (f : υ → υ') (t : VerificationType κ υ) : width (t.mapMade f) = width t := by
  cases t <;> rfl

theorem map_slots (f : υ → υ') (t : VerificationType κ υ) :
    t.slots.map (mapMade f) = (t.mapMade f).slots := by
  rw [slots, slots, width_mapMade]
  split <;> rfl

theorem map_fill (f : υ → υ') (count : Nat) (values : List (VerificationType κ υ)) :
    (fill count values).map (mapMade f) = fill count (values.map (mapMade f)) := by
  have slots : (values.flatMap slots).map (mapMade f) =
      (values.map (mapMade f)).flatMap VerificationType.slots := by
    rw [List.map_flatMap, List.flatMap_map]
    exact congrArg values.flatMap (funext fun t => map_slots f t)
  rw [fill, fill, List.map_append, List.map_replicate, slots, ← slots, List.length_map]
  rfl

end VerificationType

open VerificationType

namespace Frame

theorem flatMap_valuesOnto {locals : List FlowType} (paired : Paired locals)
    (done : List FlowType) : (valuesOnto done locals).reverse.flatMap slots =
      done.reverse.flatMap slots ++ locals := by
  fun_induction valuesOnto done locals with
  | case1 done second rest ih =>
    obtain rfl : second = .top := by simpa using paired 0 .long rfl rfl
    rw [ih paired.tail.tail]
    simp [slots, width]
  | case2 done second rest ih =>
    obtain rfl : second = .top := by simpa using paired 0 .double rfl rfl
    rw [ih paired.tail.tail]
    simp [slots, width]
  | case3 done t rest notLong notDouble ih =>
    -- A wide local would have been taken together with the slot after it.
    have narrow : width t ≠ 2 := by
      intro wide
      have second := paired 0 t rfl wide
      cases rest with
      | nil => cases second
      | cons u rest =>
        obtain rfl | rfl := FlowType.width_eq_two.1 wide
        · exact notLong u rest rfl rfl
        · exact notDouble u rest rfl rfl
    rw [ih paired.tail]
    simp [slots, narrow]
  | case4 done => simp

theorem fill_values {locals : List FlowType} (paired : Paired locals) {count : Nat}
    (enough : locals.length ≤ count) : fill count (values locals) =
      locals ++ List.replicate (count - locals.length) .top := by
  have parts := List.takeWhile_append_dropWhile (p := (· = .top)) (l := valuesOnto [] locals)
  have tops : (valuesOnto [] locals).takeWhile (· = .top) =
      List.replicate ((valuesOnto [] locals).takeWhile (· = .top)).length .top :=
    List.eq_replicate_iff.2 ⟨rfl, fun t there => by
      simpa using List.all_eq_true.1 List.all_takeWhile t there⟩
  generalize ((valuesOnto [] locals).takeWhile (· = .top)).length = unused at tops
  have whole : (values locals).flatMap slots ++ List.replicate unused .top = locals := by
    have all := flatMap_valuesOnto paired []
    rw [← parts, tops] at all
    simpa [values, List.flatMap_replicate, slots, width] using all
  have length := congrArg List.length whole
  rw [List.length_append, List.length_replicate] at length
  calc fill count (values locals)
    _ = (values locals).flatMap slots ++ (List.replicate unused .top ++
          List.replicate (count - locals.length) .top) := by
      rw [List.replicate_append_replicate, fill]
      congr 2
      omega
    _ = locals ++ List.replicate (count - locals.length) .top := by
      rw [← List.append_assoc, whole]

theorem valuesOnto_fill {ts : List FlowType} (unused : Nat) (done : List FlowType) :
    valuesOnto done (ts.flatMap slots ++ List.replicate unused .top) =
      List.replicate unused .top ++ ts.reverse ++ done := by
  induction ts generalizing done with
  | nil =>
    induction unused generalizing done with
    | zero => rfl
    | succ unused ih =>
      have next := ih (.top :: done)
      simp only [List.flatMap_nil, List.nil_append, List.reverse_nil, List.append_nil] at next ⊢
      rw [show valuesOnto done (List.replicate (unused + 1) .top) =
        valuesOnto (.top :: done) (List.replicate unused .top) from rfl, next, List.replicate_succ']
      simp
  | cons t ts ih =>
    have next := ih (t :: done)
    cases t <;> simpa [slots, width, valuesOnto] using next

theorem values_fill {ts : List FlowType} (usable : .top ∉ ts) (count : Nat) :
    values (fill count ts) = ts := by
  have kept : ∀ us : List FlowType, .top ∉ us → us.dropWhile (· = .top) = us := by
    intro us usable
    cases us with
    | nil => rfl
    | cons u us =>
      have first : u ≠ .top := fun same => usable (by simp [same])
      simp [first]
  rw [values, fill, valuesOnto_fill, List.append_nil, List.dropWhile_append_of_pos (by simp),
    kept _ (by simpa using usable), List.reverse_reverse]

theorem fill_paired (count : Nat) (ts : List FlowType) : Paired (fill count ts) := by
  have unused (count : Nat) : Paired (List.replicate count .top) := by
    intro i t there wide
    obtain ⟨_, same⟩ := List.getElem?_eq_some_iff.1 there
    rw [List.getElem_replicate] at same
    subst same
    cases wide
  rw [fill]
  generalize count - (ts.flatMap slots).length = rest
  induction ts with
  | nil => exact unused rest
  | cons t ts ih =>
    rw [List.flatMap_cons, List.append_assoc]
    rw [slots]
    intro i u there wide
    split at there
    next own =>
      rw [if_pos own]
      match i, there with
      | 0, _ => rfl
      | 1, there =>
        cases there
        cases wide
      | i + 2, there => exact ih i u there wide
    next narrow =>
      rw [if_neg narrow]
      match i, there with
      | 0, there =>
        cases there
        exact absurd wide narrow
      | i + 1, there => exact ih i u there wide

theorem length_valuesOnto (done locals : List FlowType) :
    (valuesOnto done locals).length ≤ done.length + locals.length := by
  fun_induction valuesOnto done locals with
  | case4 done => simp
  | _ =>
    simp only [List.length_cons] at *
    omega

theorem length_values (locals : List FlowType) : (values locals).length ≤ locals.length := by
  have all := length_valuesOnto [] locals
  have fewer := (List.dropWhile_sublist (· = .top) (l := valuesOnto [] locals)).length_le
  rw [values, List.length_reverse]
  simp only [List.length_nil] at all
  omega

end Frame

theorem StoredType.adds_store (t : FlowType) :
    Pool.Adds t.store fun pool stored => stored.read pool = some t.read := by
  cases t with
  | object r =>
    refine ((Pool.adds_indexOfClass r.className).bind fun _ => .pure _).imp ?_
    rintro pool stored ⟨index, name, rfl⟩
    rw [StoredType.read, Pool.classType, name]
    simp only [RefType.ofClassName_eq_ok.2 rfl]
    rfl
  | _ =>
    refine (Pool.Adds.pure _).imp ?_
    rintro pool stored rfl
    rfl

theorem StoredType.adds_storeOnto (done : List StoredType) (ts : List FlowType) :
    Pool.Adds (FlowType.storeOnto done ts) fun pool stored => ∃ more, stored = done.reverse ++ more ∧
      more.mapM (·.read pool) = some (ts.map FlowType.read) := by
  induction ts generalizing done with
  | nil =>
    refine (Pool.Adds.pure _).imp ?_
    rintro pool stored rfl
    exact ⟨[], by simp⟩
  | cons t ts ih =>
    refine ((adds_store t).bind fun first => ih (first :: done)).imp ?_
    rintro pool stored ⟨first, read, more, rfl, reads⟩
    exact ⟨first :: more, by simp, by simp [List.mapM_cons, read, reads]⟩

structure StoredFrame.Stands (pool : Pool) (stored : StoredFrame) (f : Frame) : Prop where
  locals : stored.locals.mapM (·.read pool) = some ((Frame.values f.locals).map FlowType.read)
  stack : stored.stack.mapM (·.read pool) = some (f.stack.reverse.map FlowType.read)

theorem StoredFrame.adds_store (f : Frame) :
    Pool.Adds f.store fun pool stored => stored.Stands pool f := by
  refine ((StoredType.adds_storeOnto [] _).bind fun locals =>
    (StoredType.adds_storeOnto [] _).bind fun stack => .pure (StoredFrame.mk locals stack)).imp ?_
  rintro pool _ ⟨_, ⟨locals, rfl, first⟩, _, ⟨stack, rfl, second⟩, rfl⟩
  exact ⟨first, second⟩

theorem mapM_append_eq_some {α β : Type} {f : α → Option β} {xs ys : List α} {zs : List β} :
    (xs ++ ys).mapM f = some zs ↔
      ∃ first second, xs.mapM f = some first ∧ ys.mapM f = some second ∧ first ++ second = zs := by
  rw [List.mapM_append]
  simp [Option.bind_eq_some_iff]

theorem StackMapFrame.expand_of_apply {pool : Pool} {entry : StackMapFrame} {stored : StoredFrame}
    {last : List StoredType} {before locals stack : List ReadType}
    (applies : entry.apply last = some stored) (read : last.mapM (·.read pool) = some before)
    (own : stored.locals.mapM (·.read pool) = some locals)
    (top : stored.stack.mapM (·.read pool) = some stack) :
    entry.expand pool before = some (locals, stack) := by
  have size := length_of_mapM_eq_some read
  cases entry with
  | same =>
    cases applies
    obtain rfl := Option.some.inj (read.symm.trans own)
    obtain rfl : stack = [] := by simpa [eq_comm] using top
    rfl
  | sameLocals delta t =>
    cases applies
    obtain rfl := Option.some.inj (read.symm.trans own)
    obtain ⟨u, found, rfl⟩ : ∃ u, t.read pool = some u ∧ [u] = stack := by
      simpa [List.mapM_cons, Option.bind_eq_some_iff] using top
    simp [expand, found]
  | chop delta count =>
    rw [apply] at applies
    split at applies
    next enough =>
      cases applies
      obtain rfl : stack = [] := by simpa [eq_comm] using top
      rw [← List.take_append_drop (last.length - count.toNat) last] at read
      obtain ⟨kept, gone, same, _, rfl⟩ := mapM_append_eq_some.1 read
      obtain rfl := Option.some.inj (same.symm.trans own)
      have few := length_of_mapM_eq_some same
      rw [List.length_take] at few
      rw [expand, if_pos (by omega), size, List.take_left' (by omega)]
    next => cases applies
  | append delta more =>
    cases applies
    obtain rfl : stack = [] := by simpa [eq_comm] using top
    obtain ⟨kept, added, same, more_read, rfl⟩ := mapM_append_eq_some.1 own
    obtain rfl := Option.some.inj (read.symm.trans same)
    simp [expand, more_read]
  | full =>
    cases applies
    simp [expand, own, top]

namespace StoredFrame

variable {pool : Pool} {stored previous : StoredFrame} {delta : UInt16}
  {locals stack before : List ReadType}

theorem expand_compress (own : stored.locals.mapM (·.read pool) = some locals)
    (top : stored.stack.mapM (·.read pool) = some stack)
    (last : previous.locals.mapM (·.read pool) = some before) :
    (stored.compress delta previous).expand pool before = some (locals, stack) :=
  StackMapFrame.expand_of_apply (compress_saidBy stored previous delta).leads last own top

theorem Stands.fits_compress {f : Frame} (stands : stored.Stands pool f)
    (few : f.locals.length < 65536) (low : f.stack.length < 65536) :
    (stored.compress delta previous).Fits := by
  have locals := length_of_mapM_eq_some stands.locals
  have stack := length_of_mapM_eq_some stands.stack
  have less := Frame.length_values f.locals
  simp only [List.length_map, List.length_reverse] at locals stack
  exact compress_fits (by omega) (by omega)

end StoredFrame

theorem Frame.fill_read {f : Frame} (paired : Paired f.locals) {maxLocals : Nat}
    (enough : f.locals.length ≤ maxLocals) :
    fill maxLocals ((values f.locals).map FlowType.read) = (f.read maxLocals).locals := by
  rw [Frame.read, ← fill_values paired enough]
  exact (map_fill _ maxLocals (values f.locals)).symm

namespace StackMapTable

variable {pool : Pool} {maxLocals : Nat} {previous : Option (Nat × StoredFrame)}
  {before : List ReadType}

/-- What is known of the locals before an entry, those on entry to the method or those of the frame
stored last. -/
def Precedes (pool : Pool) (initial : Frame) (before : List ReadType) :
    Option (Nat × StoredFrame) → Prop
  | none => (Frame.values initial.locals).map FlowType.read = before
  | some (_, last) => last.locals.mapM (·.read pool) = some before

def step (previous : Option (Nat × StoredFrame)) (offset : Nat) : UInt16 :=
  match previous with
  | none => UInt16.ofNat offset
  | some (last, _) => UInt16.ofNat (offset - last - 1)

theorem replay_compress {offset : Nat} {f : Frame} {stored start : StoredFrame} {table : StackMapTable}
    {frames : List (Nat × ReadFrame)} (near : gap (previous.map (·.1)) offset < 65536)
    (grows : ∀ last, previous = some last → last.1 < offset) (paired : Paired f.locals)
    (enough : f.locals.length ≤ maxLocals) (stands : stored.Stands pool f)
    (last : start.locals.mapM (·.read pool) = some before)
    (rest : replay pool maxLocals (some offset) ((Frame.values f.locals).map FlowType.read) table = some frames) :
    replay pool maxLocals (previous.map (·.1)) before (stored.compress (step previous offset) start :: table) =
      some ((offset, f.read maxLocals) :: frames) := by
  have expands : (stored.compress (step previous offset) start).expand pool before = _ :=
    StoredFrame.expand_compress stands.locals stands.stack last
  have here : offsetAfter (previous.map (·.1)) (step previous offset) = offset := by
    cases previous with
    | none => exact UInt16.toNat_ofNat_of_lt' near
    | some last =>
      have less := grows last rfl
      have delta : (step (some last) offset).toNat = offset - last.1 - 1 :=
        UInt16.toNat_ofNat_of_lt' near
      simp only [Option.map_some, offsetAfter, delta]
      omega
  have delta : (stored.compress (step previous offset) start).delta = step previous offset :=
    (StoredFrame.compress_saidBy stored start _).delta
  simp only [replay, expands, delta, here, rest, Option.bind_eq_bind, Option.bind_some,
    Frame.fill_read paired enough]
  rfl

end StackMapTable

open StackMapTable

/-- The table that is written for frames in the order of their offsets is read as these frames. -/
theorem Analysis.adds_tableOnto (initial : Frame) {maxLocals : Nat} (few : maxLocals < 65536)
    {frames : List (Nat × Frame)} (sorted : frames.Pairwise (·.1 < ·.1))
    (paired : ∀ p ∈ frames, Paired p.2.locals)
    (enough : ∀ p ∈ frames, p.2.locals.length ≤ maxLocals) (done : StackMapTable)
    (previous : Option (Nat × StoredFrame)) (can : CanSayFrom (previous.map (·.1)) frames)
    (later : ∀ last, previous = some last → ∀ p ∈ frames, last.1 < p.1) :
    Pool.Adds (tableOnto initial done previous frames) fun pool table => ∃ more : StackMapTable,
      table = done.reverse ++ more ∧ more.length = frames.length ∧ (∀ entry ∈ more, entry.Fits) ∧
      ∀ before, Precedes pool initial before previous →
        replay pool maxLocals (previous.map (·.1)) before more =
          some (frames.map fun (offset, f) => (offset, f.read maxLocals)) := by
  induction frames generalizing done previous with
  | nil =>
    refine (Pool.Adds.pure _).imp ?_
    rintro pool table rfl
    exact ⟨[], by simp, rfl, by simp, fun before _ => rfl⟩
  | cons p frames ih =>
    obtain ⟨offset, f⟩ := p
    obtain ⟨first, sorted⟩ := List.pairwise_cons.1 sorted
    simp only [List.forall_mem_cons] at paired enough
    obtain ⟨near, low, can⟩ := can
    have ih := fun done stored => ih sorted paired.2 enough.2 done (some (offset, stored)) can
      fun last same p there => by
        cases same
        exact first p there
    have before_here : ∀ last, previous = some last → last.1 < offset := fun last same =>
      later last same _ List.mem_cons_self
    cases previous with
    | none =>
      refine ((StoredFrame.adds_store f).bind fun stored => (StoredFrame.adds_store initial).bind
        fun start => ih (stored.compress (step none offset) start :: done) stored).imp ?_
      rintro pool _ ⟨stored, stands, start, entered, more, rfl, size, fits, replays⟩
      refine ⟨stored.compress (step none offset) start :: more, by simp, by simp [size],
        List.forall_mem_cons.2 ⟨stands.fits_compress (by omega) low, fits⟩,
        fun before precedes => ?_⟩
      exact replay_compress near before_here paired.1 enough.1 stands (precedes ▸ entered.locals)
        (replays _ stands.locals)
    | some last =>
      refine ((StoredFrame.adds_store f).bind fun stored =>
        ih (stored.compress (step (some last) offset) last.2 :: done) stored).imp ?_
      rintro pool _ ⟨stored, stands, more, rfl, size, fits, replays⟩
      refine ⟨stored.compress (step (some last) offset) last.2 :: more, by simp, by simp [size],
        List.forall_mem_cons.2 ⟨stands.fits_compress (by omega) low, fits⟩,
        fun before precedes => ?_⟩
      exact replay_compress near before_here paired.1 enough.1 stands precedes
        (replays _ stands.locals)

end StackMaps
