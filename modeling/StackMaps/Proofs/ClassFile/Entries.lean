import Mathlib.Data.List.Induction
import StackMaps.ClassFile.Pool
import StackMaps.Proofs.ClassFile.Constant
import StackMaps.Proofs.SlotSeq

/-! A constant pool holds the constants that were added to it at the slots they were given, and what
comes later moves none of them. -/

namespace StackMaps

namespace Constant

theorem width_pos (c : Constant) : 0 < width c := by
  cases c <;> simp [width]

theorem width_le (c : Constant) : width c ≤ 2 := by
  cases c <;> simp [width]

theorem encode_eq_key {c : Constant} (noText : ∀ bytes, c ≠ utf8 bytes) : c.encode = c.key := by
  cases c with
  | utf8 bytes => exact absurd rfl (noText bytes)
  | _ => rfl

theorem tag_eq_one {c : Constant} (same : c.tag = 1) : ∃ bytes, c = utf8 bytes := by
  cases c with
  | utf8 bytes => exact ⟨bytes, rfl⟩
  | methodRef _ _ ofInterface => cases ofInterface <;> simp [tag] at same
  | _ => simp [tag] at same

theorem fits_of_noText {c : Constant} (noText : ∀ bytes, c ≠ utf8 bytes) : c.Fits := by
  cases c with
  | utf8 bytes => exact absurd rfl (noText bytes)
  | _ => trivial

theorem key_inj {c c' : Constant} (same : c.key = c'.key) : c = c' := by
  obtain ⟨tags, payloads⟩ := List.cons.inj same
  by_cases text : ∃ bytes, c = utf8 bytes
  · obtain ⟨bytes, rfl⟩ := text
    obtain ⟨bytes', rfl⟩ := tag_eq_one tags.symm
    exact congrArg utf8 payloads
  · have noText : ∀ bytes, c ≠ utf8 bytes := fun bytes eq => text ⟨bytes, eq⟩
    have noText' : ∀ bytes, c' ≠ utf8 bytes := fun bytes eq =>
      text (tag_eq_one (tags.trans (congrArg tag eq)))
    have first := reads 0 (fits_of_noText noText) []
    have second := reads 0 (fits_of_noText noText') []
    rw [encode_eq_key noText, same, ← encode_eq_key noText', second] at first
    cases first
    rfl

end Constant

namespace Pool

def ofList (cs : List Constant) : Pool := cs.foldl push empty

/-- More constants have been added at the end. -/
def Grows (p q : Pool) : Prop := ∃ cs : List Constant, q = cs.foldl push p

/-- Constants have been added to an empty pool, each at an index of 16 bits. -/
structure Built (pool : Pool) : Prop where
  grown : ∃ cs, pool = ofList cs
  numbered : pool.entries.next ≤ 65536

variable {p q r : Pool} {cs : List Constant} {c : Constant} {i : ConstantIndex}

theorem ofList_concat (cs : List Constant) (c : Constant) :
    ofList (cs ++ [c]) = (ofList cs).push c := by
  simp [ofList]

theorem Grows.refl (p : Pool) : Grows p p := ⟨[], rfl⟩

theorem Grows.push (p : Pool) (c : Constant) : Grows p (p.push c) := ⟨[c], rfl⟩

theorem Grows.trans (first : Grows p q) (second : Grows q r) : Grows p r := by
  obtain ⟨cs, rfl⟩ := first
  obtain ⟨cs', rfl⟩ := second
  exact ⟨cs ++ cs', (List.foldl_append ..).symm⟩

theorem Grows.next_le (grows : Grows p q) : p.entries.next ≤ q.entries.next := by
  obtain ⟨cs, rfl⟩ := grows
  induction cs generalizing p with
  | nil => exact Nat.le_refl _
  | cons c cs ih => exact Nat.le_trans (Nat.le_add_right _ _) (@ih (p.push c))

theorem built_empty : empty.Built := ⟨⟨[], rfl⟩, by decide⟩

theorem start_ofList (cs : List Constant) : (ofList cs).entries.start = 1 := by
  induction cs using List.reverseRecOn with
  | nil => rfl
  | append_singleton cs c ih => rwa [ofList_concat]

theorem holds_ofList (cs : List Constant) : (ofList cs).entries.Holds cs := by
  induction cs using List.reverseRecOn with
  | nil => exact SlotSeq.holds_startingAt 1
  | append_singleton cs c ih =>
    rw [ofList_concat]
    exact ih.push c

theorem next_ofList (cs : List Constant) : (ofList cs).entries.next = 1 + totalWidth cs := by
  rw [(holds_ofList cs).next, start_ofList]

theorem get?_ofList : (ofList cs).get? i = some c ↔ (i.toNat, c) ∈ placed 1 cs := by
  have found : (ofList cs).get? i = some c ↔ _ := (holds_ofList cs).lookup_eq_some fun c _ => c.width_pos
  rwa [start_ofList] at found

theorem Grows.get? (grows : Grows p q) (built : p.Built) (found : p.get? i = some c) :
    q.get? i = some c := by
  obtain ⟨cs, rfl⟩ := built.grown
  obtain ⟨more, rfl⟩ := grows
  rw [ofList, ← List.foldl_append]
  refine get?_ofList.2 ?_
  rw [placed_append]
  exact List.mem_append_left _ (get?_ofList.1 found)

theorem index_ofList (cs : List Constant) (key : List UInt8) : (ofList cs).index[key]? =
    ((placed 1 cs).find? (·.2.key == key)).map fun p => UInt16.ofNat p.1 := by
  induction cs using List.reverseRecOn with
  | nil => rfl
  | append_singleton cs c ih =>
    rw [ofList_concat, placed_append, List.find?_append, ← next_ofList]
    simp only [push, Std.TreeMap.getElem?_insertIfNew, Std.LawfulEqCmp.compare_eq_iff_eq, placed]
    by_cases same : c.key = key
    · subst same
      have known : c.key ∈ (ofList cs).index ↔
          ((placed 1 cs).find? (·.2.key == c.key)).isSome := by
        rw [Std.TreeMap.mem_iff_isSome_getElem?, ih, Option.isSome_map]
      simp only [known, ih]
      cases (placed 1 cs).find? (·.2.key == c.key) <;> simp
    · rw [ih]
      cases (placed 1 cs).find? (·.2.key == key) <;> simp [same]

theorem Grows.index {key : List UInt8} (grows : Grows p q) (built : p.Built)
    (found : p.index[key]? = some i) : q.index[key]? = some i := by
  obtain ⟨cs, rfl⟩ := built.grown
  obtain ⟨more, rfl⟩ := grows
  rw [index_ofList] at found
  obtain ⟨first, there, rfl⟩ := Option.map_eq_some_iff.1 found
  rw [ofList, ← List.foldl_append, ← ofList, index_ofList, placed_append, List.find?_append, there]
  rfl

theorem Built.get?_of_index (built : p.Built) (found : p.index[c.key]? = some i) :
    p.get? i = some c := by
  obtain ⟨cs, rfl⟩ := built.grown
  rw [index_ofList] at found
  obtain ⟨⟨offset, c'⟩, first, rfl⟩ := Option.map_eq_some_iff.1 found
  obtain rfl : c' = c := Constant.key_inj (by simpa using List.find?_some first)
  have there := List.mem_of_find?_eq_some first
  have inside := le_of_mem_placed there
  have wide := c'.width_pos
  have numbered := built.numbered
  rw [next_ofList] at numbered
  refine get?_ofList.2 ?_
  rwa [UInt16.toNat_ofNat_of_lt' (by simp only [UInt16.size]; omega)]

theorem Built.exists_index (built : p.Built) (found : p.get? i = some c) :
    ∃ j, p.index[c.key]? = some j := by
  obtain ⟨cs, rfl⟩ := built.grown
  have there : ((placed 1 cs).find? (·.2.key == c.key)).isSome :=
    List.find?_isSome.2 ⟨_, get?_ofList.1 found, by simp⟩
  obtain ⟨first, there⟩ := Option.isSome_iff_exists.1 there
  exact ⟨UInt16.ofNat first.1, by rw [index_ofList, there]; rfl⟩

end Pool
end StackMaps
