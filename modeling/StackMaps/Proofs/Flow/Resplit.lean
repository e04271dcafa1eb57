import Mathlib.Data.List.Forall2
import StackMaps.Proofs.Flow.Block

/-! Where blocks start decides how code is split: code that has other instructions inside of blocks,
and none of them a leader, is split into blocks of the same places. -/

namespace StackMaps

theorem exists_of_forall₂ {α β : Type} {R : α → β → Prop} {as : List α} {bs : List β}
    (related : List.Forall₂ R as bs) {a : α} (there : a ∈ as) : ∃ b ∈ bs, R a b := by
  induction related with
  | nil => cases there
  | cons first _ ih =>
    obtain rfl | there := List.mem_cons.1 there
    · exact ⟨_, List.mem_cons_self, first⟩
    · obtain ⟨b, member, related⟩ := ih there
      exact ⟨b, List.mem_cons_of_mem _ member, related⟩

namespace Block

variable {leaders new : Std.TreeSet Nat} {length first : Nat} {code rest tail current : List Located}
  {done blocks : List Block} {isDead : Block → Bool}

structure Takes (place : Block) (code : List Located) (b : Block) : Prop where
  start : b.start = place.start
  stop : b.stop = place.stop
  code : b.code = code

theorem splitOnto_inner (inner : ∀ l ∈ tail, l.offset ∉ new) :
    splitOnto new length done first current (tail ++ rest) =
      splitOnto new length done first (tail.reverse ++ current) rest := by
  induction tail generalizing current with
  | nil => rfl
  | cons l tail ih =>
    obtain ⟨here, inner⟩ := List.forall_mem_cons.1 inner
    have uncut : ¬ (!current.isEmpty && new.contains l.offset) = true := by simp [here]
    rw [List.cons_append, splitOnto, if_neg uncut, ih inner]
    simp

theorem splitOnto_leader {next : Located} (begun : current ≠ []) (leader : next.offset ∈ new) :
    splitOnto new length done first current (next :: rest) =
      splitOnto new length (ofReversed current first next.offset :: done) (first + current.length)
        [next] rest := by
  have cut : (!current.isEmpty && new.contains next.offset) = true := by simp [begun, leader]
  rw [splitOnto, if_pos cut]

structure Fills (new : Std.TreeSet Nat) (b : Block) (code : List Located) (head : Located)
    (tail : List Located) : Prop where
  code : code = head :: tail
  start : head.offset = b.start
  inner : ∀ l ∈ tail, l.offset ∉ new

theorem Fills.takes {b : Block} {head : Located} (fills : Fills new b code head tail) (first : Nat) :
    Takes b code (ofReversed (tail.reverse ++ [head]) first b.stop) := by
  have same : (tail.reverse ++ [head]).reverse = head :: tail := by simp
  have held : (ofReversed (tail.reverse ++ [head]) first b.stop).Holds new head tail :=
    ofReversed_holds same fills.inner first b.stop
  exact ⟨held.start.trans fills.start, rfl, held.code.trans fills.code.symm⟩

theorem Cut.splitOnto_fills {b : Block} (cut : Cut leaders length code (b :: blocks))
    {fill : Block → List Located}
    (fills : ∀ b' ∈ blocks, ∃ head tail, Fills new b' (fill b') head tail)
    (starts : ∀ b' ∈ blocks, b'.start ∈ new) {head : Located} {tail : List Located}
    (own : Fills new b (fill b) head tail) (done : List Block) (first : Nat) :
    ∃ blocks', splitOnto new length done first [head] (tail ++ blocks.flatMap fill) =
        done.reverse ++ blocks' ∧
      List.Forall₂ (fun b b' => Takes b (fill b) b') (b :: blocks) blocks' := by
  induction blocks generalizing b code head tail done first with
  | nil =>
    rw [List.flatMap_nil, splitOnto_inner own.inner, splitOnto]
    cases cut with
    | last holds stop => exact ⟨[_], by simp, .cons (stop ▸ own.takes first) .nil⟩
    | cons holds stop leader further => cases further
  | cons second blocks ih =>
    cases cut with
    | @cons _ _ next _ _ _ holds stop leader further =>
      obtain ⟨⟨head', tail', own'⟩, fills⟩ := List.forall_mem_cons.1 fills
      obtain ⟨here, starts⟩ := List.forall_mem_cons.1 starts
      have place : second.start = b.stop := by
        obtain ⟨_, _, same, start⟩ := further.exists_head
        cases same
        exact start.trans stop.symm
      rw [List.flatMap_cons, own'.code, splitOnto_inner own.inner, List.cons_append,
        splitOnto_leader (by simp) (own'.start ▸ here), own'.start, place]
      obtain ⟨blocks', result, matched⟩ := ih further fills starts own' _ _
      exact ⟨_ :: blocks', by rw [result]; simp, .cons (own.takes first) matched⟩

theorem Cut.split_fills (cut : Cut leaders length code blocks) {fill : Block → List Located}
    (fills : ∀ b ∈ blocks, ∃ head tail, Fills new b (fill b) head tail)
    (starts : ∀ b ∈ blocks, b.start ∈ new) :
    List.Forall₂ (fun b b' => Takes b (fill b) b') blocks (split new length (blocks.flatMap fill)) := by
  cases blocks with
  | nil => cases cut
  | cons b blocks =>
    obtain ⟨⟨head, tail, own⟩, fills⟩ := List.forall_mem_cons.1 fills
    obtain ⟨_, starts⟩ := List.forall_mem_cons.1 starts
    obtain ⟨blocks', result, matched⟩ := cut.splitOnto_fills fills starts own [] 0
    have begun : split new length (fill b ++ blocks.flatMap fill) =
        splitOnto new length [] 0 [head] (tail ++ blocks.flatMap fill) := by
      rw [own.code]
      simp [split, splitOnto]
    rwa [List.flatMap_cons, begun, result]

end Block

end StackMaps
