import Mathlib.Algebra.Ring.Nat
import StackMaps.Proofs.Frame.FrameMerge
import StackMaps.Proofs.Hierarchy.Rank

/-! A merge leaves the frame that was there as it is, or lowers its rank: an array loses dimensions, a
class becomes a superclass, `null` becomes an object and a local can be given up. -/

namespace StackMaps

variable {H : Hierarchy} {K : BinaryName → Prop} {D : Nat}

def ElementType.rank (H : Hierarchy) : ElementType → Nat
  | .object n => H.rank n
  | .base _ => 0

namespace RefType

def rank (H : Hierarchy) : RefType → Nat
  | .object n => H.rank n
  | .array i e => i + 1 + e.rank H

theorem rank_arrayOf (r : RefType) : (arrayOf (.ref r)).rank H = r.rank H + 1 := by
  cases r with
  | object n => simp only [arrayOf, rank, ElementType.rank]; omega
  | array i e => simp only [arrayOf, rank]; omega

theorem rank_object (a : RefType) :
    RefType.object .object = a ∨ (object .object).rank H < a.rank H := by
  cases a with
  | object a =>
    by_cases top : a = .object
    · exact .inl (by rw [top])
    · refine .inr ?_
      rw [rank, Hierarchy.rank_object]
      exact Hierarchy.rank_pos top
  | array i e =>
    refine .inr ?_
    rw [rank, Hierarchy.rank_object, rank]
    omega

theorem Merges.rank_lt (rooted : H.IsRooted) (apart : ∀ a b, ¬ H.Circle a b) {a b r : RefType}
    (merges : Merges H a b r) : r = a ∨ r.rank H < a.rank H := by
  induction merges with
  | same => exact .inl rfl
  | classes common =>
    exact ((Hierarchy.common_of_ok common).rank_lt rooted apart).imp_left (congrArg _)
  | components a b r _ ih =>
    rw [rank_arrayOf, rank_arrayOf]
    exact ih.imp (congrArg fun r => arrayOf (.ref r)) Nat.succ_lt_succ
  | apart => exact rank_object _

theorem rank_le {r : RefType} (within : r.Within K D) : r.rank H ≤ D + H.bound + 1 := by
  have names : ∀ n, H.rank n ≤ H.bound + 1 := Hierarchy.rank_le
  cases r with
  | object n =>
    have := names n
    simp only [rank]
    omega
  | array i e =>
    have extra := within.2
    simp only [rank]
    cases e with
    | object n =>
      have := names n
      simp only [ElementType.rank]
      omega
    | base b =>
      simp only [ElementType.rank]
      omega

end RefType

namespace FlowType

def rank (H : Hierarchy) (D : Nat) : FlowType → Nat
  | .top => 0
  | .null => D + H.bound + 3
  | .object r => r.rank H + 1
  | _ => 1

theorem rank_le {t : FlowType} (within : t.Within K D) : t.rank H D ≤ D + H.bound + 3 := by
  cases t with
  | object r =>
    have := RefType.rank_le (H := H) (show r.Within K D from within)
    simp only [rank]
    omega
  | _ =>
    simp only [rank]
    omega

theorem Merges.rank_lt (rooted : H.IsRooted) (apart : ∀ a b, ¬ H.Circle a b) {a b t : FlowType}
    (merges : Merges H a b t) (inb : b.Within K D) : t = a ∨ t.rank H D < a.rank H D := by
  cases merges with
  | same => exact .inl rfl
  | left => exact .inl rfl
  | right r =>
    have := RefType.rank_le (H := H) (show r.Within K D from inb)
    refine .inr ?_
    simp only [rank]
    omega
  | object _ ok =>
    obtain rfl | less := (RefType.merges_of_ok ok).rank_lt rooted apart
    · exact .inl rfl
    · exact .inr (Nat.succ_lt_succ less)

theorem mergeLocal_rank (rooted : H.IsRooted) (apart : ∀ a b, ¬ H.Circle a b) {a b t : FlowType}
    (ok : answer (mergeLocal H.source a b) = .ok t) (inb : b.Within K D) :
    t = a ∨ t.rank H D < a.rank H D := by
  obtain rfl | merges := mergeLocal_cases ok
  · by_cases top : a = .top
    · exact .inl top.symm
    · refine .inr ?_
      cases a
      case top => exact absurd rfl top
      all_goals simp only [rank]; omega
  · exact merges.rank_lt rooted apart inb

end FlowType

namespace Frame

def ranks (H : Hierarchy) (D : Nat) (ts : List FlowType) : Nat := (ts.map (·.rank H D)).sum

/-- How often merges can change a frame. -/
def rank (H : Hierarchy) (D : Nat) (f : Frame) : Nat := ranks H D f.locals + ranks H D f.stack

theorem ranks_le {ts : List FlowType} (within : ∀ t ∈ ts, t.Within K D) :
    ranks H D ts ≤ ts.length * (D + H.bound + 3) := by
  induction ts with
  | nil => exact Nat.zero_le _
  | cons t ts ih =>
    obtain ⟨first, rest⟩ := List.forall_mem_cons.1 within
    have less := FlowType.rank_le (H := H) first
    have less' := ih rest
    simp only [ranks, List.map_cons, List.sum_cons, List.length_cons, Nat.succ_mul] at less' ⊢
    omega

theorem rank_le {f : Frame} (within : f.Within K D) :
    f.rank H D ≤ (f.locals.length + f.stack.length) * (D + H.bound + 3) := by
  have locals := ranks_le (H := H) within.1
  have stack := ranks_le (H := H) within.2
  rw [Nat.add_mul]
  exact Nat.add_le_add locals stack

theorem ranks_lt {Q : FlowType → FlowType → FlowType → Prop} {as bs ts : List FlowType}
    (zipped : Zipped Q as bs ts) (inbs : ∀ b ∈ bs, b.Within K D)
    (step : ∀ a b t, b.Within K D → Q a b t → t = a ∨ t.rank H D < a.rank H D) :
    ts = as ∨ ranks H D ts < ranks H D as := by
  induction zipped with
  | nil => exact .inl rfl
  | cons first _ ih =>
    obtain ⟨inb, inbs⟩ := List.forall_mem_cons.1 inbs
    have here := step _ _ _ inb first
    have later := ih inbs
    simp only [ranks, List.map_cons, List.sum_cons] at later ⊢
    obtain rfl | less := here
    · obtain rfl | less' := later
      · exact .inl rfl
      · exact .inr (Nat.add_lt_add_left less' _)
    · obtain rfl | less' := later
      · exact .inr (Nat.add_lt_add_right less _)
      · exact .inr (Nat.add_lt_add less less')

/-- A merge changes a frame only by lowering its rank. -/
theorem Merges.rank_lt (rooted : H.IsRooted) (apart : ∀ a b, ¬ H.Circle a b) {f g t : Frame}
    (merges : Merges H f g t) (ing : g.Within K D) : t = f ∨ t.rank H D < f.rank H D := by
  have locals := ranks_lt (H := H) merges.locals ing.1 fun _ _ _ inb ok =>
    FlowType.mergeLocal_rank rooted apart ok inb
  have stack := ranks_lt (H := H) merges.stack ing.2 fun _ _ _ inb merges =>
    merges.rank_lt rooted apart inb
  obtain ⟨fl, fs⟩ := f
  obtain ⟨tl, ts⟩ := t
  obtain same | less := locals
  · obtain same' | less' := stack
    · cases same
      cases same'
      exact .inl rfl
    · cases same
      exact .inr (Nat.add_lt_add_left less' _)
  · obtain same' | less' := stack
    · cases same'
      exact .inr (Nat.add_lt_add_right less _)
    · exact .inr (Nat.add_lt_add less less')

end Frame

end StackMaps
