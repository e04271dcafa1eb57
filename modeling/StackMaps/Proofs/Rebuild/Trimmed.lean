import StackMaps.Flow.Rebuild

/-! What trimming leaves of the range of a handler: pieces that end where the range or a dead range
does, lie outside of all dead ranges, and together hold everything else. -/

namespace StackMaps.Handler

variable {start stop : Nat} {dead : List (Nat × Nat)} {p : Nat × Nat}

structure Piece (start stop : Nat) (dead : List (Nat × Nat)) (p : Nat × Nat) : Prop where
  nonempty : p.1 < p.2
  start_le : start ≤ p.1
  le_stop : p.2 ≤ stop
  start_cases : p.1 = start ∨ ∃ d ∈ dead, p.1 = d.2
  stop_cases : p.2 = stop ∨ ∃ d ∈ dead, p.2 = d.1
  apart : ∀ d ∈ dead, p.2 ≤ d.1 ∨ d.2 ≤ p.1

theorem Piece.cons {d : Nat × Nat} (piece : Piece start stop dead p)
    (apart : p.2 ≤ d.1 ∨ d.2 ≤ p.1) : Piece start stop (d :: dead) p where
  nonempty := piece.nonempty
  start_le := piece.start_le
  le_stop := piece.le_stop
  start_cases := piece.start_cases.imp_right fun ⟨d, member, same⟩ =>
    ⟨d, List.mem_cons_of_mem _ member, same⟩
  stop_cases := piece.stop_cases.imp_right fun ⟨d, member, same⟩ =>
    ⟨d, List.mem_cons_of_mem _ member, same⟩
  apart := List.forall_mem_cons.2 ⟨apart, piece.apart⟩

theorem livePieces_piece (sorted : dead.Pairwise fun d d' => d.2 ≤ d'.1)
    (proper : ∀ d ∈ dead, d.1 < d.2) (there : p ∈ livePieces start stop dead) :
    Piece start stop dead p := by
  induction dead generalizing start with
  | nil =>
    rw [livePieces] at there
    split at there
    next nonempty =>
      cases List.mem_singleton.1 there
      exact ⟨nonempty, Nat.le_refl _, Nat.le_refl _, .inl rfl, .inl rfl, nofun⟩
    next => cases there
  | cons d dead ih =>
    obtain ⟨deadStart, deadStop⟩ := d
    obtain ⟨first, sorted⟩ := List.pairwise_cons.1 sorted
    obtain ⟨own, proper⟩ := List.forall_mem_cons.1 proper
    rw [livePieces] at there
    split at there
    next outside =>
      have piece := ih sorted proper there
      have start_le := piece.start_le
      have le_stop := piece.le_stop
      exact piece.cons (by simp only; omega)
    next inside =>
      obtain before | after := List.mem_append.1 there
      · split at before
        next nonempty =>
          cases List.mem_singleton.1 before
          refine ⟨nonempty, Nat.le_refl _, by simp only; omega, .inl rfl,
            .inr ⟨_, List.mem_cons_self, rfl⟩, List.forall_mem_cons.2 ⟨.inl (Nat.le_refl _), ?_⟩⟩
          intro d member
          have next := first d member
          simp only at next own
          exact .inl (by simp only; omega)
        next => cases before
      · have beyond : deadStop ≤ p.1 := (ih sorted proper after).start_le
        have piece : Piece deadStop stop ((deadStart, deadStop) :: dead) p :=
          (ih sorted proper after).cons (.inr beyond)
        have start_le : start ≤ p.1 := by
          simp only at own
          omega
        refine { piece with start_le, start_cases := .inr ?_ }
        obtain same | there := piece.start_cases
        · exact ⟨_, List.mem_cons_self, same⟩
        · exact there

theorem length_filter_livePieces (proper : ∀ d ∈ dead, d.1 < d.2) {offset : Nat}
    (live : ∀ d ∈ dead, ¬ (d.1 ≤ offset ∧ offset < d.2)) :
    ((livePieces start stop dead).filter fun p => p.1 ≤ offset && offset < p.2).length =
      if start ≤ offset ∧ offset < stop then 1 else 0 := by
  have one (p : Nat × Nat) : (([p].filter fun p => p.1 ≤ offset && offset < p.2).length) =
      if p.1 ≤ offset ∧ offset < p.2 then 1 else 0 := by
    by_cases inside : p.1 ≤ offset ∧ offset < p.2
    · simp [inside]
    · rw [if_neg inside, List.filter_cons_of_neg (by simpa using inside)]
      rfl
  induction dead generalizing start with
  | nil =>
    rw [livePieces]
    split
    · exact one _
    · rw [if_neg (by omega)]
      rfl
  | cons d dead ih =>
    obtain ⟨deadStart, deadStop⟩ := d
    obtain ⟨own, proper⟩ := List.forall_mem_cons.1 proper
    obtain ⟨outside, live⟩ := List.forall_mem_cons.1 live
    simp only at own outside
    rw [livePieces]
    split
    · exact ih proper live
    · rw [List.filter_append, List.length_append, ih proper live]
      split
      · rw [one]
        simp only
        split <;> split <;> split <;> omega
      · rw [List.filter_nil, List.length_nil]
        split <;> split <;> omega

theorem livePieces_apart (nonempty : start < stop)
    (apart : ∀ d ∈ dead, stop ≤ d.1 ∨ d.2 ≤ start) : livePieces start stop dead = [(start, stop)] := by
  induction dead with
  | nil => rw [livePieces, if_pos nonempty]
  | cons d dead ih =>
    obtain ⟨own, apart⟩ := List.forall_mem_cons.1 apart
    rw [livePieces, if_pos own.symm, ih apart]

theorem mem_trim {h h' : Handler} (sorted : dead.Pairwise fun d d' => d.2 ≤ d'.1)
    (proper : ∀ d ∈ dead, d.1 < d.2) (there : h' ∈ h.trim dead) :
    Piece h.start.toNat h.stop.toNat dead (h'.start.toNat, h'.stop.toNat) ∧
      h'.target = h.target ∧ h'.catchType = h.catchType := by
  obtain ⟨p, member, rfl⟩ := List.mem_map.1 there
  have piece := livePieces_piece sorted proper member
  have small := h.stop.toNat_lt
  have nonempty := piece.nonempty
  have le_stop := piece.le_stop
  have first : (UInt16.ofNat p.1).toNat = p.1 :=
    UInt16.toNat_ofNat_of_lt' (by simp only [UInt16.size]; omega)
  have second : (UInt16.ofNat p.2).toNat = p.2 :=
    UInt16.toNat_ofNat_of_lt' (by simp only [UInt16.size]; omega)
  refine ⟨?_, rfl, rfl⟩
  rwa [first, second]

theorem trim_of_mem_trim {h h' : Handler} (sorted : dead.Pairwise fun d d' => d.2 ≤ d'.1)
    (proper : ∀ d ∈ dead, d.1 < d.2) (there : h' ∈ h.trim dead) : h'.trim dead = [h'] := by
  obtain ⟨piece, _⟩ := mem_trim sorted proper there
  rw [trim, livePieces_apart piece.nonempty piece.apart]
  simp

end StackMaps.Handler
