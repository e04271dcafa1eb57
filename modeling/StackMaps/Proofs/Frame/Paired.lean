import StackMaps.Proofs.Frame.FrameMerge
import StackMaps.Proofs.Frame.Size

/-! A long or double local keeps its second slot: instructions and merges leave no half of one
behind. -/

namespace StackMaps

/-- A long or double among the locals is followed by a slot that cannot be used. -/
def Paired (locals : List FlowType) : Prop :=
  ∀ (i : Nat) (t : FlowType), locals[i]? = some t → width t = 2 → locals[i + 1]? = some .top

theorem Paired.tail {t : FlowType} {locals : List FlowType} (paired : Paired (t :: locals)) :
    Paired locals := fun i u there wide => paired (i + 1) u there wide

theorem FlowType.width_eq_two {t : FlowType} : width t = 2 ↔ t = .long ∨ t = .double := by
  cases t <;> simp [width]

namespace LocalSlots

variable {locals written : List FlowType} {t : FlowType} {slot : UInt16}

theorem getElem?_spoilWide (i j : Nat) : (spoilWide i locals)[j]? =
    if j = i then locals[j]?.map fun u => if width u = 2 then .top else u else locals[j]? := by
  have spoilt {t : FlowType} (there : locals[i]? = some t) (wide : width t = 2) :
      (locals.set i .top)[j]? =
        if j = i then locals[j]?.map fun u => if width u = 2 then .top else u else locals[j]? := by
    by_cases here : j = i
    · subst here
      rw [if_pos rfl, there, Option.map_some, if_pos wide,
        List.getElem?_set_self (List.getElem?_eq_some_iff.1 there).1]
    · rw [List.getElem?_set_ne (Ne.symm here), if_neg here]
  unfold spoilWide
  split
  next there => exact spoilt there rfl
  next there => exact spoilt there rfl
  next noLong noDouble =>
    split
    next here =>
      subst here
      cases there : locals[j]? with
      | none => rfl
      | some u =>
        have narrow : ¬ width u = 2 := fun wide => by
          obtain rfl | rfl := FlowType.width_eq_two.1 wide
          · exact noLong there
          · exact noDouble there
        simp [narrow]
    next => rfl

theorem getElem?_write (ok : write t slot locals = .ok written) (j : Nat) : written[j]? =
    if j = slot.toNat then some t
    else if j = slot.toNat + 1 ∧ width t = 2 then some .top
    else if j + 1 = slot.toNat then locals[j]?.map fun u => if width u = 2 then .top else u
    else locals[j]? := by
  simp only [write] at ok
  split at ok
  next => cases ok
  next fits =>
    generalize spoilt_eq : (if slot.toNat = 0 then locals else spoilWide (slot.toNat - 1) locals) = spoilt
      at ok
    have size : spoilt.length = locals.length := by
      rw [← spoilt_eq]
      split
      · rfl
      · exact length_spoilWide _ _
    have before (j : Nat) : spoilt[j]? = if j + 1 = slot.toNat then
        locals[j]?.map fun u => if width u = 2 then .top else u else locals[j]? := by
      rw [← spoilt_eq]
      split
      next first => rw [if_neg (by omega)]
      next later =>
        rw [getElem?_spoilWide]
        exact if_congr (by omega) rfl rfl
    have slots := t.width_cases
    cases ok
    rw [← before]
    split
    next wide =>
      rw [List.getElem?_set, List.getElem?_set, List.length_set]
      grind
    next narrow =>
      rw [List.getElem?_set]
      grind

/-- Writing a slot leaves no wide value in the slot before, and others where they were. -/
theorem write_paired (paired : Paired locals) (ok : write t slot locals = .ok written) :
    Paired written := by
  intro j u there wide
  rw [getElem?_write ok] at there ⊢
  by_cases first : j = slot.toNat
  · rw [if_pos first] at there
    cases there
    rw [if_neg (by omega), if_pos ⟨congrArg (· + 1) first, wide⟩]
  · rw [if_neg first] at there
    split at there
    next =>
      cases there
      cases wide
    next noSecond =>
      split at there
      next =>
        obtain ⟨v, _, rfl⟩ := Option.map_eq_some_iff.1 there
        split at wide
        next => cases wide
        next narrow => exact absurd wide narrow
      next apart =>
        have top := paired j u there wide
        rw [if_neg apart, if_neg (by omega), top]
        split <;> rfl

end LocalSlots

open LocalSlots

namespace Frame

theorem paired_replace {old new : FlowType} {f : Frame} (paired : Paired f.locals) (usable : old ≠ .top)
    (narrow : width new = 1) : Paired (f.replace old new).locals := by
  intro i t there wide
  simp only [replace, List.getElem?_map, Option.map_eq_some_iff] at there ⊢
  obtain ⟨u, there, swapped⟩ := there
  have same : u = t := by
    split at swapped
    · subst swapped
      omega
    · exact swapped
  subst same
  exact ⟨.top, paired i u there wide, if_neg (Ne.symm usable)⟩

theorem step_paired {c : MethodContext} {offset : Nat} {i : Instruction} {f g : Frame}
    (paired : Paired f.locals) (ok : step c offset i f = .ok g) : Paired g.locals := by
  cases step_eq_ok.1 ok with
  | takes => exact paired
  | stores _ _ written => exact write_paired paired written
  | @constructs _ _ _ receiver _ _ _ _ _ _ made =>
    cases receiver with
    | uninitializedThis | uninitialized =>
      cases made
      exact paired_replace paired nofun rfl
    | _ => cases made
  | throws => exact paired

end Frame

variable {H : Hierarchy}

theorem FlowType.Merges.width_eq {a b t : FlowType} (merges : Merges H a b t) :
    width a = width t ∧ width b = width t := by
  cases merges <;> exact ⟨rfl, rfl⟩

theorem FlowType.eq_of_mergeLocal {a b t : FlowType}
    (ok : answer (mergeLocal H.source a b) = .ok t) (wide : width t = 2) : a = t ∧ b = t := by
  obtain rfl | merges := mergeLocal_cases ok
  · cases wide
  · cases merges with
    | same => exact ⟨rfl, rfl⟩
    | _ => cases wide

theorem Zipped.of_merged {α : Type} {Q : α → α → α → Prop} {as bs ts : List α}
    (zipped : Zipped Q as bs ts) {i : Nat} {t : α} (there : ts[i]? = some t) :
    ∃ a b, as[i]? = some a ∧ bs[i]? = some b ∧ Q a b t := by
  induction zipped generalizing i with
  | nil => simp at there
  | cons first _ ih =>
    cases i with
    | zero =>
      cases there
      exact ⟨_, _, rfl, rfl, first⟩
    | succ i => exact ih there

theorem Zipped.of_mem {α : Type} {Q : α → α → α → Prop} {as bs ts : List α}
    (zipped : Zipped Q as bs ts) {t : α} (there : t ∈ ts) : ∃ a ∈ as, ∃ b ∈ bs, Q a b t := by
  obtain ⟨i, there⟩ := List.getElem?_of_mem there
  obtain ⟨a, b, ina, inb, holds⟩ := zipped.of_merged there
  exact ⟨a, List.mem_of_getElem? ina, b, List.mem_of_getElem? inb, holds⟩

theorem Zipped.paired {Q : FlowType → FlowType → FlowType → Prop} {as bs ts : List FlowType}
    (same : ∀ a b t, Q a b t → width t = 2 → a = t ∧ b = t) (unused : ∀ t, Q .top .top t → t = .top)
    (zipped : Zipped Q as bs ts) (left : Paired as) (right : Paired bs) : Paired ts := by
  intro i u there wide
  obtain ⟨a, b, ina, inb, merged⟩ := zipped.of_merged there
  obtain ⟨rfl, rfl⟩ := same a b u merged wide
  have second := left i _ ina wide
  have inside : i + 1 < ts.length := by
    rw [zipped.length_merged]
    exact (List.getElem?_eq_some_iff.1 second).1
  obtain ⟨a', b', ina', inb', merged'⟩ := zipped.of_merged (List.getElem?_eq_getElem inside)
  obtain rfl := Option.some.inj (ina'.symm.trans second)
  obtain rfl := Option.some.inj (inb'.symm.trans (right i _ inb wide))
  rw [List.getElem?_eq_getElem inside, unused _ merged']

namespace Frame

theorem Merges.paired {f g t : Frame} (merges : Merges H f g t) (left : Paired f.locals)
    (right : Paired g.locals) : Paired t.locals := by
  refine merges.locals.paired (fun _ _ _ => FlowType.eq_of_mergeLocal) (fun t merged => ?_) left right
  obtain same | same := FlowType.mergeLocal_cases merged
  · exact same
  · cases same
    rfl

theorem Merges.height {f g t : Frame} (merges : Merges H f g t) : t.height = f.height := by
  have stack := merges.stack
  unfold Frame.height
  generalize f.stack = fs, g.stack = gs, t.stack = ts at stack
  induction stack with
  | nil => rfl
  | cons first _ ih => rw [totalWidth, totalWidth, ih, first.width_eq.1]

end Frame

end StackMaps
