import StackMaps.Frame.Stored
import StackMaps.Proofs.Frame.StackMapFrame

/-! The entry that is chosen for a frame leads to it from the locals of the frame before, and there
is no shorter one. An entry either says all of its frame or abridges it in one of four ways, of
which at most one is open. -/

namespace StackMaps

/-- The frame after an entry, given the locals before it: no more can be dropped than there are. -/
def StackMapFrame.apply (before : List StoredType) : StackMapFrame → Option StoredFrame
  | same _ => some ⟨before, []⟩
  | sameLocals _ t => some ⟨before, [t]⟩
  | chop _ count =>
    if count.toNat ≤ before.length then some ⟨before.take (before.length - count.toNat), []⟩
    else none
  | append _ more => some ⟨before ++ more, []⟩
  | full _ locals stack => some ⟨locals, stack⟩

/-- Lists that agree as far as both go: one goes on where the other ends. -/
theorem prefix_of_agree {α : Type} [DecidableEq α] {xs ys : List α}
    (agree : ((xs.zip ys).all fun (a, b) => a = b) = true) : xs <+: ys ∨ ys <+: xs := by
  induction xs generalizing ys with
  | nil => exact .inl List.nil_prefix
  | cons x xs ih =>
    cases ys with
    | nil => exact .inr List.nil_prefix
    | cons y ys =>
      simp only [List.zip_cons_cons, List.all_cons, Bool.and_eq_true, decide_eq_true_eq] at agree
      obtain ⟨rfl, agree⟩ := agree
      simpa [List.cons_prefix_cons] using ih agree

theorem agree_of_goesOn {α : Type} [DecidableEq α] {xs ys : List α} (goesOn : xs <+: ys) :
    ((xs.zip ys).all fun (a, b) => a = b) = true ∧
      ((ys.zip xs).all fun (a, b) => a = b) = true := by
  induction xs generalizing ys with
  | nil => simp
  | cons x xs ih =>
    obtain ⟨more, rfl⟩ := goesOn
    simpa using ih (List.prefix_append xs more)

namespace StoredFrame

variable {f previous : StoredFrame} {before : List StoredType} {delta : UInt16}
  {entry : StackMapFrame}

/-- The entry can be written, and it leads to the frame from these locals. -/
structure SaidBy (f : StoredFrame) (before : List StoredType) (delta : UInt16)
    (entry : StackMapFrame) : Prop where
  delta : entry.delta = delta
  written : entry.fault? = none
  leads : entry.apply before = some f

/-- The entry leads to the frame from these locals without repeating all of it. -/
inductive AbridgedBy (f : StoredFrame) (before : List StoredType) (delta : UInt16) :
    StackMapFrame → Prop
  | same : f.stack = [] → f.locals = before → AbridgedBy f before delta (.same delta)
  | sameLocals {t : StoredType} : f.stack = [t] → f.locals = before →
    AbridgedBy f before delta (.sameLocals delta t)
  | chop {gone : List StoredType} : f.stack = [] → before = f.locals ++ gone →
    0 < gone.length → gone.length < 4 →
    AbridgedBy f before delta (.chop delta (UInt8.ofNat gone.length))
  | append {more : List StoredType} : f.stack = [] → f.locals = before ++ more →
    0 < more.length → more.length < 4 → AbridgedBy f before delta (.append delta more)

theorem toNat_ofNat_few {n : Nat} (few : n < 4) : (UInt8.ofNat n).toNat = n := by
  rw [UInt8.toNat_ofNat']
  omega

theorem AbridgedBy.fits (abridged : f.AbridgedBy before delta entry) : entry.Fits := by
  cases abridged with
  | same | sameLocals => trivial
  | chop _ _ some few =>
    rw [StackMapFrame.Fits, UInt8.lt_iff_toNat_lt, UInt8.lt_iff_toNat_lt, toNat_ofNat_few few]
    exact ⟨some, few⟩
  | append _ _ some few => exact ⟨some, few⟩

theorem AbridgedBy.saidBy (abridged : f.AbridgedBy before delta entry) :
    f.SaidBy before delta entry := by
  have written := abridged.fits.fault?_eq_none
  obtain ⟨locals, stack⟩ := f
  cases abridged with
  | same empty same | sameLocals empty same =>
    cases empty
    cases same
    exact ⟨rfl, written, rfl⟩
  | chop empty longer some few =>
    cases empty
    subst longer
    refine ⟨rfl, written, ?_⟩
    rw [StackMapFrame.apply, toNat_ofNat_few few]
    simp
  | append empty longer some few =>
    cases empty
    cases longer
    exact ⟨rfl, written, rfl⟩

theorem saidBy_iff : f.SaidBy before delta entry ↔
    f.AbridgedBy before delta entry ∨ entry = f.full delta := by
  constructor
  · rintro ⟨rfl, written, leads⟩
    cases entry with
    | same | sameLocals =>
      cases leads
      refine .inl ?_
      constructor <;> rfl
    | chop d count =>
      rw [StackMapFrame.apply] at leads
      split at leads
      next enough =>
        cases leads
        have range : 0 < count ∧ count < 4 := by
          simpa [StackMapFrame.fault?] using written
        obtain ⟨some, few⟩ := range
        have some : 0 < count.toNat := some
        have few : count.toNat < 4 := few
        have size : (before.drop (before.length - count.toNat)).length = count.toNat := by
          rw [List.length_drop]
          omega
        have chopped : AbridgedBy ⟨before.take (before.length - count.toNat), []⟩ before d
            (.chop d (UInt8.ofNat (before.drop (before.length - count.toNat)).length)) :=
          .chop rfl (List.take_append_drop _ before).symm (by omega) (by omega)
        rw [size, UInt8.ofNat_toNat] at chopped
        exact .inl chopped
      next => cases leads
    | append d more =>
      cases leads
      have range : 0 < more.length ∧ more.length < 4 := by
        simpa [StackMapFrame.fault?] using written
      exact .inl (.append rfl rfl range.1 range.2)
    | full =>
      cases leads
      exact .inr rfl
  · rintro (abridged | rfl)
    · exact abridged.saidBy
    · exact ⟨rfl, rfl, rfl⟩

theorem AbridgedBy.compress_eq (abridged : f.AbridgedBy previous.locals delta entry) :
    f.compress delta previous = entry := by
  cases abridged with
  | same empty same =>
    have agree := (agree_of_goesOn (List.prefix_refl previous.locals)).1
    rw [compress, empty, same]
    simp only [agree, if_true]
  | sameLocals single same =>
    rw [compress, single]
    exact if_pos same
  | @chop gone empty longer some few =>
    have agree := (agree_of_goesOn (List.prefix_append f.locals gone)).1
    rw [compress, empty, longer]
    simp only [agree, if_true, List.length_append, Nat.add_sub_cancel_left]
    rw [if_neg (by omega), if_pos (by omega)]
  | @append more empty longer some few =>
    have agree := (agree_of_goesOn (List.prefix_append previous.locals more)).2
    rw [compress, empty, longer]
    simp only [agree, if_true, List.length_append, Nat.add_sub_cancel_left, List.drop_left]
    rw [if_neg (by omega), if_neg (by omega), if_pos (by omega)]

theorem compress_cases (f previous : StoredFrame) (delta : UInt16) :
    f.AbridgedBy previous.locals delta (f.compress delta previous) ∨
      f.compress delta previous = f.full delta := by
  simp only [compress]
  split
  next empty =>
    split
    next agree =>
      obtain ⟨gone, longer⟩ | ⟨more, longer⟩ := prefix_of_agree agree
      · -- Locals go away.
        rw [← longer, List.length_append, Nat.add_sub_cancel_left]
        split
        next all =>
          obtain rfl := List.length_eq_zero_iff.1 (show gone.length = 0 by omega)
          exact .inl (.same empty (List.append_nil _).symm)
        next some =>
          split
          next few => exact .inl (.chop empty rfl (by omega) (by omega))
          next => exact .inr (if_neg (by omega))
      · -- Locals are added.
        rw [← longer, List.length_append, Nat.add_sub_cancel_left, List.drop_left]
        split
        next all =>
          obtain rfl := List.length_eq_zero_iff.1 (show more.length = 0 by omega)
          exact .inl (.same empty (by rw [← longer, List.append_nil]))
        next some =>
          rw [if_neg (by omega)]
          split
          next few => exact .inl (.append empty longer.symm (by omega) (by omega))
          next => exact .inr rfl
    next => exact .inr rfl
  next t single =>
    split
    next same => exact .inl (.sameLocals single same)
    next => exact .inr rfl
  next => exact .inr rfl

theorem compress_saidBy (f previous : StoredFrame) (delta : UInt16) :
    f.SaidBy previous.locals delta (f.compress delta previous) :=
  saidBy_iff.2 (compress_cases f previous delta)

theorem compress_fits (few : f.locals.length < 65536) (low : f.stack.length < 65536) :
    (f.compress delta previous).Fits := by
  obtain abridged | all := compress_cases f previous delta
  · exact abridged.fits
  · rw [all]
    exact ⟨few, low⟩

theorem AbridgedBy.length_lt (abridged : f.AbridgedBy before delta entry) :
    entry.encode.length < (f.full delta).encode.length := by
  have most : entry.encode.length ≤ entry.encodeApart.length := by
    simpa using (entry.outruns_encodeApart []).le
  have all : (f.full delta).encode.length = 7 + (f.locals.flatMap StoredType.encode).length +
      (f.stack.flatMap StoredType.encode).length := by
    simp only [full, StackMapFrame.encode, List.length_append, List.length_cons,
      length_encodeUInt16, length_encodeList]
    omega
  refine Nat.lt_of_le_of_lt most ?_
  rw [all]
  cases abridged with
  | same | chop =>
    simp only [StackMapFrame.encodeApart, StackMapFrame.encode, List.length_cons,
      length_encodeUInt16]
    omega
  | sameLocals single =>
    simp only [single, StackMapFrame.encodeApart, List.length_append, List.length_cons,
      length_encodeUInt16, List.flatMap_cons, List.flatMap_nil, List.append_nil]
    omega
  | append _ longer =>
    simp only [longer, StackMapFrame.encodeApart, StackMapFrame.encode, List.length_append,
      List.length_cons, length_encodeUInt16, List.flatMap_append]
    omega

/-- Any other entry that leads to the frame is longer than the one chosen. -/
theorem length_compress_lt {other : StackMapFrame} (said : f.SaidBy previous.locals delta other)
    (different : other ≠ f.compress delta previous) :
    (f.compress delta previous).encode.length < other.encode.length := by
  obtain abridged | rfl := saidBy_iff.1 said
  · exact absurd abridged.compress_eq.symm different
  · obtain abridged | all := compress_cases f previous delta
    · exact abridged.length_lt
    · exact absurd all.symm different

/-- The entry that is chosen for a frame is read again from what is written for it, and leads to the
frame from the locals of the one before. Every other entry with the same delta that does is longer,
and no bytes that are read as one are fewer. -/
theorem compress_shortest (f previous : StoredFrame) (delta : UInt16) :
    f.SaidBy previous.locals delta (f.compress delta previous) ∧
    (f.locals.length < 65536 → f.stack.length < 65536 →
      Reads StackMapFrame.decoder (f.compress delta previous).encode (f.compress delta previous)) ∧
    (∀ other, f.SaidBy previous.locals delta other → other ≠ f.compress delta previous →
      (f.compress delta previous).encode.length < other.encode.length) ∧
    ∀ bytes other, StackMapFrame.decoder bytes = .ok (other, []) → other.delta = delta →
      other.apply previous.locals = some f →
      (f.compress delta previous).encode.length ≤ bytes.length := by
  refine ⟨compress_saidBy f previous delta,
    fun few low => StackMapFrame.reads (compress_fits few low),
    fun other => length_compress_lt, fun bytes other read here leads => ?_⟩
  obtain ⟨fits, longer⟩ := StackMapFrame.decoder_shortens read
  have said : f.SaidBy previous.locals delta other := ⟨here, fits.fault?_eq_none, leads⟩
  have least : (f.compress delta previous).encode.length ≤ other.encode.length := by
    by_cases same : other = f.compress delta previous
    · rw [same]
    · exact Nat.le_of_lt (length_compress_lt said same)
  have most := longer.le
  rw [List.append_nil] at most
  exact Nat.le_trans least most

def crowded : StoredFrame := ⟨[.int, .long, .object 7, .float], []⟩

def cleared : StoredFrame := ⟨[.int], []⟩

theorem compress_shortest_cleared :
    cleared.SaidBy crowded.locals 64 (.chop 64 3) ∧
    Reads StackMapFrame.decoder [248, 0, 64] (.chop 64 3) ∧
    (StackMapFrame.chop 64 3).encode.length < (cleared.full 64).encode.length ∧
    StackMapFrame.decoder [255, 0, 64, 0, 1, 1, 0, 0] = .ok (cleared.full 64, []) ∧
    (StackMapFrame.chop 64 3).encode.length ≤ 8 := by
  obtain ⟨said, reads, shorter, fewer⟩ := compress_shortest cleared crowded 64
  have full : cleared.SaidBy crowded.locals 64 (cleared.full 64) := ⟨rfl, rfl, rfl⟩
  have read : StackMapFrame.decoder [255, 0, 64, 0, 1, 1, 0, 0] = .ok (cleared.full 64, []) := by
    decide +kernel
  exact ⟨said, reads (by decide) (by decide), shorter _ full (by decide), read,
    fewer _ _ read rfl rfl⟩

/-- Only three locals can be dropped at once. -/
example : (StoredFrame.mk [] []).compress 64 crowded = .full 64 [] [] := by decide

end StoredFrame
end StackMaps
