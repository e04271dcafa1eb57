import StackMaps.Proofs.Frame.StackMapFrame
import StackMaps.Proofs.Table.Replay

/-! What a table can say: its counts and the distances between its frames have 16 bits. -/

namespace StackMaps

theorem length_of_mapM_eq_some {α β : Type} {f : α → Option β} {xs : List α} {ys : List β}
    (ok : xs.mapM f = some ys) : ys.length = xs.length := by
  induction xs generalizing ys with
  | nil =>
    cases ok
    rfl
  | cons x xs ih =>
    simp only [List.mapM_cons, Option.bind_eq_bind, Option.bind_eq_some_iff] at ok
    obtain ⟨y, _, ys, later, same⟩ := ok
    cases same
    simp [ih later]

namespace StackMapTable

variable {pool : Pool} {maxLocals : Nat} {before : Option Nat} {frames : List (Nat × Frame)}

def gap : Option Nat → Nat → Nat
  | none, offset => offset
  | some before, offset => offset - before - 1

/-- Every frame is near enough to the one before, and its stack is low enough. -/
def CanSayFrom : Option Nat → List (Nat × Frame) → Prop
  | _, [] => True
  | before, (offset, f) :: rest =>
    gap before offset < 65536 ∧ f.stack.length < 65536 ∧ CanSayFrom (some offset) rest

def CanSay (frames : List (Nat × Frame)) : Prop := frames.length < 65536 ∧ CanSayFrom none frames

instance decidableCanSayFrom : (before : Option Nat) → (frames : List (Nat × Frame)) →
    Decidable (CanSayFrom before frames)
  | _, [] => isTrue trivial
  | before, (offset, f) :: rest =>
    have := decidableCanSayFrom (some offset) rest
    inferInstanceAs (Decidable (gap before offset < 65536 ∧ f.stack.length < 65536 ∧
      CanSayFrom (some offset) rest))

instance : Decidable (CanSay frames) :=
  inferInstanceAs (Decidable (frames.length < 65536 ∧ CanSayFrom none frames))

theorem canSayFrom_of_small (small : ∀ p ∈ frames, p.1 < 65536 ∧ p.2.stack.length < 65536) :
    CanSayFrom before frames := by
  induction frames generalizing before with
  | nil => trivial
  | cons p frames ih =>
    obtain ⟨⟨near, low⟩, small⟩ := List.forall_mem_cons.1 small
    have gap : gap before p.1 ≤ p.1 := by
      cases before with
      | none => exact Nat.le_refl _
      | some before => exact Nat.le_trans (Nat.sub_le _ _) (Nat.sub_le _ _)
    exact ⟨Nat.lt_of_le_of_lt gap near, low, ih small⟩

theorem gap_offsetAfter (before : Option Nat) (delta : UInt16) :
    gap before (offsetAfter before delta) = delta.toNat := by
  cases before with
  | none => rfl
  | some before =>
    rw [gap, offsetAfter]
    omega

theorem stack_lt_of_expand {entry : StackMapFrame} (fits : entry.Fits)
    {locals after stack : List ReadType} (expands : entry.expand pool locals = some (after, stack)) :
    stack.length < 65536 := by
  cases entry with
  | same | chop => simp_all [StackMapFrame.expand]
  | sameLocals | append =>
    simp only [StackMapFrame.expand, Option.bind_eq_bind, Option.bind_eq_some_iff] at expands
    obtain ⟨_, _, same⟩ := expands
    cases same
    simp
  | full delta stored top =>
    simp only [StackMapFrame.expand, Option.bind_eq_bind, Option.bind_eq_some_iff] at expands
    obtain ⟨_, _, _, read, same⟩ := expands
    cases same
    rw [length_of_mapM_eq_some read]
    exact fits.2

theorem canSayFrom_of_replay {table : StackMapTable} (fits : ∀ entry ∈ table, entry.Fits)
    {locals : List ReadType} (replays : table.replay pool maxLocals before locals =
      some (frames.map fun (offset, f) => (offset, f.read maxLocals))) :
    frames.length = table.length ∧ CanSayFrom before frames := by
  induction table generalizing before locals frames with
  | nil =>
    cases frames with
    | nil => exact ⟨rfl, trivial⟩
    | cons => cases replays
  | cons entry table ih =>
    obtain ⟨first, fits⟩ := List.forall_mem_cons.1 fits
    simp only [replay, Option.bind_eq_bind, Option.bind_eq_some_iff] at replays
    obtain ⟨⟨after, stack⟩, expands, later, rest, same⟩ := replays
    cases frames with
    | nil => cases same
    | cons p frames =>
      obtain ⟨offset, f⟩ := p
      obtain ⟨here, rfl⟩ := List.cons.inj (Option.some.inj same)
      obtain ⟨rfl, read⟩ := Prod.mk.inj here
      obtain ⟨size, later⟩ := ih fits rest
      have low := stack_lt_of_expand first expands
      have height : stack.length = f.stack.length := by
        have heights := congrArg (fun f : ReadFrame => f.stack.length) read
        simpa [Frame.read] using heights
      refine ⟨by rw [List.length_cons, List.length_cons, size], ?_, height ▸ low, later⟩
      rw [gap_offsetAfter]
      exact entry.delta.toNat_lt

end StackMapTable

end StackMaps
