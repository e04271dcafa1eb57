import StackMaps.Proofs.Rebuild.Confined

/-! Cutting dead ranges out of an exception table leaves what is left of each handler in its place, so
that an exception thrown by live code finds the same handlers in the same order. -/

namespace StackMaps.Handler

def Within (ranges : List (Nat × Nat)) (offset : Nat) : Prop :=
  ∃ d ∈ ranges, d.1 ≤ offset ∧ offset < d.2

instance (h : Handler) (offset : Nat) : Decidable (h.Covers offset) :=
  inferInstanceAs (Decidable (_ ∧ _))

/-- Where an exception that is thrown at an offset can be caught and as what, in the order in which
handlers are tried. -/
def landings (table : List Handler) (offset : Nat) : List (UInt16 × Option ConstantIndex) :=
  (table.filter (·.Covers offset)).map fun h => (h.target, h.catchType)

variable {h : Handler} {table pieces pieces' : List Handler} {dead : List (Nat × Nat)}
  {gone : Nat → Prop} {offset : Nat}

theorem covers_start (nonempty : h.start < h.stop) : h.Covers h.start.toNat :=
  ⟨Nat.le_refl _, UInt16.lt_iff_toNat_lt.1 nonempty⟩

theorem start_le_of_covers (nonempty : ∀ p ∈ h :: pieces, p.start < p.stop)
    (apart : (h :: pieces).Pairwise fun p p' => p.stop < p'.start)
    (covered : ∃ p ∈ h :: pieces, p.Covers offset) : h.start.toNat ≤ offset := by
  obtain ⟨p, there, first, _⟩ := covered
  obtain rfl | later := List.mem_cons.1 there
  · exact first
  · have own := UInt16.lt_iff_toNat_lt.1 (nonempty h List.mem_cons_self)
    have next := UInt16.lt_iff_toNat_lt.1 ((List.pairwise_cons.1 apart).1 p later)
    omega

theorem not_covers_stop (apart : (h :: pieces).Pairwise fun p p' => p.stop < p'.start) :
    ¬ ∃ p ∈ h :: pieces, p.Covers h.stop.toNat := by
  rintro ⟨p, there, first, last⟩
  obtain rfl | later := List.mem_cons.1 there
  · exact Nat.lt_irrefl _ last
  · have next := UInt16.lt_iff_toNat_lt.1 ((List.pairwise_cons.1 apart).1 p later)
    omega

theorem covers_tail_iff (apart : (h :: pieces).Pairwise fun p p' => p.stop < p'.start) :
    (∃ p ∈ pieces, p.Covers offset) ↔
      (∃ p ∈ h :: pieces, p.Covers offset) ∧ h.stop.toNat < offset := by
  constructor
  · rintro ⟨p, there, first, last⟩
    have next := UInt16.lt_iff_toNat_lt.1 ((List.pairwise_cons.1 apart).1 p there)
    exact ⟨⟨p, List.mem_cons_of_mem _ there, first, last⟩, by omega⟩
  · rintro ⟨⟨p, there, first, last⟩, beyond⟩
    obtain rfl | later := List.mem_cons.1 there
    · omega
    · exact ⟨p, later, first, last⟩

/-- There is one way only to cover some offsets by pieces that do not touch. -/
theorem eq_of_covers (nonempty : ∀ p ∈ pieces, p.start < p.stop)
    (nonempty' : ∀ p ∈ pieces', p.start < p.stop)
    (apart : pieces.Pairwise fun p p' => p.stop < p'.start)
    (apart' : pieces'.Pairwise fun p p' => p.stop < p'.start)
    (alike : ∀ p ∈ pieces, p.target = h.target ∧ p.catchType = h.catchType)
    (alike' : ∀ p ∈ pieces', p.target = h.target ∧ p.catchType = h.catchType)
    (same : ∀ offset, (∃ p ∈ pieces, p.Covers offset) ↔ ∃ p ∈ pieces', p.Covers offset) :
    pieces = pieces' := by
  induction pieces generalizing pieces' with
  | nil =>
    refine (List.eq_nil_iff_forall_not_mem.2 fun p there => ?_).symm
    obtain ⟨_, none, _⟩ := (same _).2 ⟨p, there, covers_start (nonempty' p there)⟩
    cases none
  | cons p pieces ih =>
    cases pieces' with
    | nil =>
      have own : p ∈ p :: pieces := List.mem_cons_self
      obtain ⟨_, none, _⟩ := (same _).1 ⟨p, own, covers_start (nonempty p own)⟩
      cases none
    | cons p' pieces' =>
      have own : p ∈ p :: pieces := List.mem_cons_self
      have own' : p' ∈ p' :: pieces' := List.mem_cons_self
      have start : p.start.toNat = p'.start.toNat := Nat.le_antisymm
        (start_le_of_covers nonempty apart ((same _).2 ⟨p', own', covers_start (nonempty' p' own')⟩))
        (start_le_of_covers nonempty' apart' ((same _).1 ⟨p, own, covers_start (nonempty p own)⟩))
      have first := UInt16.lt_iff_toNat_lt.1 (nonempty p own)
      have first' := UInt16.lt_iff_toNat_lt.1 (nonempty' p' own')
      -- Where one of the two ends, the other one does not go on.
      have stop : p.stop.toNat = p'.stop.toNat := by
        refine Nat.le_antisymm (Nat.le_of_not_lt fun less => ?_) (Nat.le_of_not_lt fun less => ?_)
        · exact not_covers_stop apart' ((same _).1 ⟨p, own, by omega, less⟩)
        · exact not_covers_stop apart ((same _).2 ⟨p', own', by omega, less⟩)
      have equal : p = p' := by
        obtain ⟨target, type⟩ := alike p own
        obtain ⟨target', type'⟩ := alike' p' own'
        cases p
        cases p'
        cases UInt16.toNat_inj.1 start
        cases UInt16.toNat_inj.1 stop
        cases target.trans target'.symm
        cases type.trans type'.symm
        rfl
      subst equal
      obtain ⟨_, others⟩ := List.forall_mem_cons.1 nonempty
      obtain ⟨_, others'⟩ := List.forall_mem_cons.1 nonempty'
      rw [ih others others' (List.pairwise_cons.1 apart).2 (List.pairwise_cons.1 apart').2
        (List.forall_mem_cons.1 alike).2 (List.forall_mem_cons.1 alike').2
        fun offset => by rw [covers_tail_iff apart, covers_tail_iff apart', same]]

theorem Cut.unique (cut : Cut gone h pieces) (cut' : Cut gone h pieces') : pieces = pieces' :=
  eq_of_covers cut.nonempty cut'.nonempty cut.apart cut'.apart cut.alike cut'.alike
    fun offset => (cut.covers offset).trans (cut'.covers offset).symm

theorem Cut.eq_nil_iff (cut : Cut gone h pieces) :
    pieces = [] ↔ ∀ offset, h.Covers offset → gone offset := by
  constructor
  · rintro rfl offset covers
    by_contra live
    obtain ⟨_, none, _⟩ := (cut.covers offset).2 ⟨covers, live⟩
    cases none
  · intro all
    refine List.eq_nil_iff_forall_not_mem.2 fun p there => ?_
    obtain ⟨covers, live⟩ := (cut.covers _).1 ⟨p, there, covers_start (cut.nonempty p there)⟩
    exact live (all _ covers)

theorem landings_flatMap {α : Type} (f : α → List Handler) (xs : List α) :
    landings (xs.flatMap f) offset = xs.flatMap fun x => landings (f x) offset := by
  simp only [landings, List.filter_flatMap, List.map_flatMap]

theorem landings_eq_nil (none : ∀ h ∈ table, ¬ h.Covers offset) : landings table offset = [] := by
  rw [landings, List.map_eq_nil_iff, List.filter_eq_nil_iff]
  simpa using none

theorem landings_pieces (alike : ∀ p ∈ pieces, p.target = h.target ∧ p.catchType = h.catchType)
    (apart : pieces.Pairwise fun p p' => p.stop < p'.start) (covered : ∃ p ∈ pieces, p.Covers offset) :
    landings pieces offset = [(h.target, h.catchType)] := by
  obtain ⟨p, there, covers⟩ := covered
  obtain ⟨before, after, rfl⟩ := List.append_of_mem there
  obtain ⟨_, own, earlier⟩ := List.pairwise_append.1 apart
  have first (q : Handler) (there : q ∈ before) : ¬ q.Covers offset := fun ⟨_, last⟩ => by
    have next := UInt16.lt_iff_toNat_lt.1 (earlier q there p List.mem_cons_self)
    have := covers.1
    omega
  have second (q : Handler) (there : q ∈ after) : ¬ q.Covers offset := fun ⟨start, _⟩ => by
    have next := UInt16.lt_iff_toNat_lt.1 ((List.pairwise_cons.1 own).1 q there)
    have := covers.2
    omega
  obtain ⟨target, type⟩ := alike p there
  have apart : landings (before ++ p :: after) offset =
      landings before offset ++ landings [p] offset ++ landings after offset := by
    simp only [landings, ← List.map_append, ← List.filter_append, List.append_assoc, List.singleton_append]
  rw [apart, landings_eq_nil first, landings_eq_nil second, landings,
    List.filter_cons_of_pos (by simpa using covers)]
  simp [target, type]

/-- Of the handlers that can catch an exception, those that are trimmed are as those that are not. -/
theorem landings_cut (cut : Cut gone h pieces) (live : ¬ gone offset) :
    landings pieces offset = landings [h] offset := by
  by_cases covers : h.Covers offset
  · rw [landings_pieces cut.alike cut.apart ((cut.covers offset).2 ⟨covers, live⟩),
      landings_pieces (fun p there => by rw [List.mem_singleton.1 there]; exact ⟨rfl, rfl⟩)
        (List.pairwise_singleton _ h) ⟨h, List.mem_singleton_self h, covers⟩]
  · rw [landings_eq_nil fun p there inside => covers ((cut.covers offset).1 ⟨p, there, inside⟩).1,
      landings_eq_nil fun p there => by rwa [List.mem_singleton.1 there]]

/-- Cutting dead ranges out of an exception table puts in the place of each handler the only pieces
that cover what it covered less the dead ranges and do not touch, none if nothing is left. Live code
keeps its handlers in their order, and dead code has none. -/
theorem trim_subtracts (sorted : dead.Pairwise fun d d' => d.2 ≤ d'.1)
    (proper : ∀ d ∈ dead, d.1 < d.2) (table : List Handler) :
    (∃ pieces, table.flatMap (·.trim dead) = pieces.flatten ∧
      List.Forall₂ (fun h own => h.Cut (Within dead) own ∧
        (own = [] ↔ ∀ offset, h.Covers offset → Within dead offset) ∧
        ∀ own', h.Cut (Within dead) own' → own' = own) table pieces) ∧
    (∀ offset, ¬ Within dead offset →
      landings (table.flatMap (·.trim dead)) offset = landings table offset) ∧
    ∀ offset, Within dead offset → ∀ h ∈ table.flatMap (·.trim dead), ¬ h.Covers offset := by
  have cut (h : Handler) : h.Cut (Within dead) (h.trim dead) := h.cut_trim sorted proper
  refine ⟨⟨table.map (·.trim dead), List.flatMap_def .., ?_⟩, fun offset live => ?_,
    fun offset inside h' there covers => ?_⟩
  · rw [List.forall₂_map_right_iff, List.forall₂_same]
    exact fun h _ => ⟨cut h, (cut h).eq_nil_iff, fun _ other => other.unique (cut h)⟩
  · have whole : table.flatMap (fun h => [h]) = table := List.flatMap_singleton' table
    rw [landings_flatMap]
    conv_rhs => rw [← whole, landings_flatMap]
    exact congrArg (fun f => table.flatMap f) (funext fun h => landings_cut (cut h) live)
  · obtain ⟨h, _, there⟩ := List.mem_flatMap.1 there
    exact (((cut h).covers offset).1 ⟨h', there, covers⟩).2 inside

theorem trim_subtracts_four :
    let dead := [(4, 8), (12, 14)]
    let table : List Handler := [⟨0, 20, 40, none⟩, ⟨4, 8, 40, none⟩, ⟨8, 12, 40, none⟩, ⟨2, 6, 40, none⟩]
    dead.Pairwise (fun d d' => d.2 ≤ d'.1) ∧ (∀ d ∈ dead, d.1 < d.2) ∧
      table.flatMap (·.trim dead) = [⟨0, 4, 40, none⟩, ⟨8, 12, 40, none⟩, ⟨14, 20, 40, none⟩,
        ⟨8, 12, 40, none⟩, ⟨2, 4, 40, none⟩] ∧
      (∀ offset, ¬ Within dead offset →
        landings (table.flatMap (·.trim dead)) offset = landings table offset) ∧
      ∀ offset, Within dead offset → ∀ h ∈ table.flatMap (·.trim dead), ¬ h.Covers offset := by
  intro dead table
  have sorted : dead.Pairwise fun d d' => d.2 ≤ d'.1 := by decide
  have proper : ∀ d ∈ dead, d.1 < d.2 := by decide
  exact ⟨sorted, proper, by decide, (trim_subtracts sorted proper table).2⟩

end StackMaps.Handler
