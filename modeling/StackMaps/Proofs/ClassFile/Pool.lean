import StackMaps.ClassFile.Pool
import StackMaps.Proofs.Answer
import StackMaps.Proofs.ClassFile.Text
import StackMaps.Proofs.SlotSeq

/-! A text in a constant pool is no longer than the longest one. -/

namespace StackMaps

namespace Pool

variable {pool : Pool} {i : ConstantIndex}

theorem le_foldl {α : Type} {step : Nat → α → Nat} (size : α → Nat)
    (grows : ∀ n x, n ≤ step n x) (takes : ∀ n x, size x ≤ step n x) (xs : List α) (n : Nat) :
    n ≤ xs.foldl step n ∧ ∀ x ∈ xs, size x ≤ xs.foldl step n := by
  induction xs generalizing n with
  | nil => simp
  | cons y ys ih =>
    obtain ⟨least, all⟩ := ih (step n y)
    refine ⟨Nat.le_trans (grows n y) least, fun x there => ?_⟩
    obtain rfl | there := List.mem_cons.1 there
    · exact Nat.le_trans (takes n x) least
    · exact all x there

def textLength : Constant → Nat
  | .utf8 bytes => bytes.length
  | _ => 0

theorem longestText_le (pool : Pool) {bytes : List UInt8} (offset : Nat)
    (there : (offset, Constant.utf8 bytes) ∈ pool.entries.entries) :
    bytes.length ≤ pool.longestText := by
  unfold longestText
  rw [← Array.foldl_toList]
  refine (le_foldl (fun p : Nat × Constant => textLength p.2) (fun n p => ?_) (fun n p => ?_)
    pool.entries.entries.toList 0).2 _ there.val
  · obtain ⟨_, c⟩ := p
    cases c with
    | utf8 bytes => exact Nat.le_max_left ..
    | _ => exact Nat.le_refl n
  · obtain ⟨_, c⟩ := p
    cases c with
    | utf8 bytes => exact Nat.le_max_right ..
    | _ => exact Nat.zero_le _

theorem longestText_push (pool : Pool) (c : Constant) :
    pool.longestText ≤ (pool.push c).longestText := by
  obtain ⟨⟨start, entries, next⟩, index⟩ := pool
  simp only [longestText, push, SlotSeq.push, Array.foldl_push]
  cases c with
  | utf8 bytes => exact Nat.le_max_left ..
  | _ => exact Nat.le_refl _

theorem utf8_length {text : String} (ok : pool.utf8 i = .ok text) :
    text.toList.length ≤ pool.longestText := by
  obtain ⟨bytes, found, ok⟩ := bind_eq_ok.1 ok
  cases read : ModifiedUtf8.decode bytes with
  | none => simp [read] at ok
  | some text' =>
    simp only [read] at ok
    cases ok
    refine Nat.le_trans (ModifiedUtf8.length_decode read) (pool.longestText_le i.toNat ?_)
    unfold utf8Bytes at found
    split at found
    next there =>
      cases found
      exact SlotSeq.mem_of_lookup there
    next => cases found

theorem className_length {text : String} (ok : pool.className i = .ok text) :
    text.toList.length ≤ pool.longestText := by
  unfold className at ok
  split at ok
  next => exact utf8_length ok
  next => cases ok

theorem nameAndType_length {name descriptor : String}
    (ok : pool.nameAndType i = .ok (name, descriptor)) :
    descriptor.toList.length ≤ pool.longestText := by
  unfold nameAndType at ok
  split at ok
  next =>
    obtain ⟨_, _, ok⟩ := bind_eq_ok.1 ok
    obtain ⟨_, found, ok⟩ := bind_eq_ok.1 ok
    cases ok
    exact utf8_length found
  next => cases ok

theorem member_length {owner : ConstantIndex} {name descriptor : String}
    (ok : pool.member i = .ok (owner, name, descriptor)) :
    descriptor.toList.length ≤ pool.longestText := by
  unfold member at ok
  split at ok
  next =>
    obtain ⟨⟨_, _⟩, found, ok⟩ := bind_eq_ok.1 ok
    cases ok
    exact nameAndType_length found
  next =>
    obtain ⟨⟨_, _⟩, found, ok⟩ := bind_eq_ok.1 ok
    cases ok
    exact nameAndType_length found
  next => cases ok

end Pool

end StackMaps
