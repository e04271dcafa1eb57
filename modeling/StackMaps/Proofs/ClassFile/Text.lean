import StackMaps.Text.ModifiedUtf8

/-! Text in modified UTF-8: what is written is read again, and a character takes at least one byte.
Bytes are read in groups, each of which stands for a UTF-16 unit. -/

namespace StackMaps.ModifiedUtf8

theorem length_unitsOnto {done units : List Nat} {bytes : List UInt8}
    (ok : unitsOnto done bytes = some units) : units.length ≤ done.length + bytes.length := by
  fun_induction unitsOnto done bytes with
  | case1 =>
    cases ok
    simp
  | case2 _ _ _ _ _ ih | case3 _ _ _ _ _ _ _ _ ih | case6 _ _ _ _ _ _ _ _ _ _ ih =>
    have := ih ok
    simp only [List.length_cons] at this ⊢
    omega
  | _ => cases ok

theorem length_charsOnto {done chars : List Char} {units : List Nat}
    (ok : charsOnto done units = some chars) : chars.length ≤ done.length + units.length := by
  fun_induction charsOnto done units with
  | case1 =>
    cases ok
    simp
  | case2 _ _ _ _ _ _ ih | case6 _ _ _ _ _ ih =>
    have := ih ok
    simp only [List.length_cons] at this ⊢
    omega
  | _ => cases ok

theorem length_decode {bytes : List UInt8} {text : String} (ok : decode bytes = some text) :
    text.toList.length ≤ bytes.length := by
  simp only [decode, Option.bind_eq_bind, Option.bind_eq_some_iff, Option.pure_def,
    Option.some.injEq] at ok
  obtain ⟨units, readUnits, chars, readChars, rfl⟩ := ok
  have := length_unitsOnto readUnits
  have := length_charsOnto readChars
  rw [String.toList_ofList]
  simp only [List.length_nil] at *
  omega

abbrev Continues (b : UInt8) : Prop := 0x80 ≤ b.toNat ∧ b.toNat ≤ 0xBF

theorem isContinuation_iff {b : UInt8} : isContinuation b = true ↔ Continues b := by
  simp only [isContinuation, Bool.and_eq_true, decide_eq_true_eq]
  omega

/-- The bytes of one unit: the first one tells how many others go on with it. -/
inductive Group
  | one (lead : UInt8) (leads : 0x01 ≤ lead.toNat ∧ lead.toNat ≤ 0x7F)
  | two (lead last : UInt8) (leads : 0xC0 ≤ lead.toNat ∧ lead.toNat ≤ 0xDF) (ends : Continues last)
  | three (lead middle last : UInt8) (leads : 0xE0 ≤ lead.toNat ∧ lead.toNat ≤ 0xEF)
    (goesOn : Continues middle) (ends : Continues last)

theorem toNat_ofNat {n : Nat} (small : n < 256) : (UInt8.ofNat n).toNat = n :=
  UInt8.toNat_ofNat_of_lt' small

namespace Group

def bytes : Group → List UInt8
  | one lead _ => [lead]
  | two lead last .. => [lead, last]
  | three lead middle last .. => [lead, middle, last]

def unit : Group → Nat
  | one lead _ => lead.toNat
  | two lead last .. => lead.toNat % 32 * 64 + last.toNat % 64
  | three lead middle last .. => lead.toNat % 16 * 4096 + middle.toNat % 64 * 64 + last.toNat % 64

/-- The unit takes as many bytes as the group has: two for U+0000, and otherwise as few as there can
be. -/
def IsShortest (g : Group) : Prop :=
  match g with
  | one .. => 0x01 ≤ g.unit ∧ g.unit ≤ 0x7F
  | two .. => g.unit = 0 ∨ 0x80 ≤ g.unit ∧ g.unit ≤ 0x7FF
  | three .. => 0x800 ≤ g.unit

theorem unitsOnto_bytes (g : Group) (done : List Nat) (rest : List UInt8) :
    unitsOnto done (g.bytes ++ rest) = unitsOnto (g.unit :: done) rest := by
  cases g with
  | one lead leads =>
    rw [bytes, List.singleton_append, unitsOnto.eq_def, unit]
    simp only
    rw [if_pos (by omega)]
  | two lead last leads ends =>
    simp only [bytes, List.cons_append, List.nil_append, unitsOnto, isContinuation_iff.2 ends, unit]
    rw [if_neg (by omega), if_pos (by omega), if_pos trivial]
  | three lead middle last leads goesOn ends =>
    simp only [bytes, List.cons_append, List.nil_append, unitsOnto, isContinuation_iff.2 goesOn,
      isContinuation_iff.2 ends, unit]
    rw [if_neg (by omega), if_neg (by omega), if_pos (by omega), if_pos ⟨trivial, trivial⟩]

theorem exists_shortest {u : Nat} (small : u < 0x10000) :
    ∃ g : Group, g.bytes = encodeUnit u ∧ g.unit = u ∧ g.IsShortest := by
  unfold encodeUnit
  split
  next single =>
    have lead := toNat_ofNat (n := u) (by omega)
    exact ⟨one (UInt8.ofNat u) (by omega), rfl, lead, by simp only [IsShortest, unit]; omega⟩
  next other =>
    split
    next low =>
      have lead := toNat_ofNat (n := 0xC0 + u / 64) (by omega)
      have last := toNat_ofNat (n := 0x80 + u % 64) (by omega)
      have whole : (0xC0 + u / 64) % 32 * 64 + (0x80 + u % 64) % 64 = u := by omega
      refine ⟨two (UInt8.ofNat (0xC0 + u / 64)) (UInt8.ofNat (0x80 + u % 64)) (by omega) (by omega),
        rfl, ?_, ?_⟩ <;> simp only [IsShortest, unit, lead, last, whole]
      omega
    next high =>
      have lead := toNat_ofNat (n := 0xE0 + u / 4096) (by omega)
      have middle := toNat_ofNat (n := 0x80 + u / 64 % 64) (by omega)
      have last := toNat_ofNat (n := 0x80 + u % 64) (by omega)
      have whole : (0xE0 + u / 4096) % 16 * 4096 + (0x80 + u / 64 % 64) % 64 * 64 +
          (0x80 + u % 64) % 64 = u := by omega
      refine ⟨three (UInt8.ofNat (0xE0 + u / 4096)) (UInt8.ofNat (0x80 + u / 64 % 64))
        (UInt8.ofNat (0x80 + u % 64)) (by omega) (by omega) (by omega), rfl, ?_, ?_⟩ <;>
        simp only [IsShortest, unit, lead, middle, last, whole]
      omega

end Group

theorem unitsOnto_encodeUnit {unit : Nat} (small : unit < 0x10000) (done : List Nat)
    (rest : List UInt8) :
    unitsOnto done (encodeUnit unit ++ rest) = unitsOnto (unit :: done) rest := by
  obtain ⟨g, written, stands, _⟩ := Group.exists_shortest small
  rw [← written, g.unitsOnto_bytes, stands]

theorem unitsOnto_encodeUnits {units : List Nat} (small : ∀ unit ∈ units, unit < 0x10000)
    (done : List Nat) : unitsOnto done (units.flatMap encodeUnit) = some (done.reverse ++ units) := by
  induction units generalizing done with
  | nil => simp [unitsOnto]
  | cons unit units ih =>
    obtain ⟨first, small⟩ := List.forall_mem_cons.1 small
    rw [List.flatMap_cons, unitsOnto_encodeUnit first, ih small]
    simp

theorem toNat_cases (c : Char) : c.toNat < 0xD800 ∨ 0xDFFF < c.toNat ∧ c.toNat < 0x110000 := c.valid

theorem lt_of_mem_units {c : Char} {unit : Nat} (member : unit ∈ units c) : unit < 0x10000 := by
  have valid := toNat_cases c
  unfold units at member
  split at member
  next small =>
    rw [List.mem_singleton.1 member]
    exact small
  next =>
    simp only [List.mem_cons, List.not_mem_nil, or_false] at member
    omega

theorem isHighSurrogate_iff {unit : Nat} :
    isHighSurrogate unit = true ↔ 0xD800 ≤ unit ∧ unit < 0xDC00 := by
  simp [isHighSurrogate]

theorem isLowSurrogate_iff {unit : Nat} :
    isLowSurrogate unit = true ↔ 0xDC00 ≤ unit ∧ unit < 0xE000 := by
  simp [isLowSurrogate]

theorem charsOnto_units (c : Char) (done : List Char) (rest : List Nat) :
    charsOnto done (units c ++ rest) = charsOnto (c :: done) rest := by
  have valid := toNat_cases c
  unfold units
  split
  next =>
    have plain : ¬ isHighSurrogate c.toNat = true ∧ ¬ isLowSurrogate c.toNat = true := by
      rw [isHighSurrogate_iff, isLowSurrogate_iff]
      omega
    rw [List.singleton_append, charsOnto.eq_def]
    simp only
    rw [if_neg plain.1, if_neg plain.2, Char.ofNat_toNat]
  next =>
    have high : isHighSurrogate (0xD800 + (c.toNat - 0x10000) / 0x400) = true := by
      rw [isHighSurrogate_iff]
      omega
    have low : isLowSurrogate (0xDC00 + (c.toNat - 0x10000) % 0x400) = true := by
      rw [isLowSurrogate_iff]
      omega
    have whole : 0x10000 + (0xD800 + (c.toNat - 0x10000) / 0x400 - 0xD800) * 0x400 +
        (0xDC00 + (c.toNat - 0x10000) % 0x400 - 0xDC00) = c.toNat := by omega
    simp only [List.cons_append, List.nil_append, charsOnto, high, low, whole, Char.ofNat_toNat,
      ↓reduceIte]

theorem charsOnto_flatMap_units (chars done : List Char) :
    charsOnto done (chars.flatMap units) = some (done.reverse ++ chars) := by
  induction chars generalizing done with
  | nil => simp [charsOnto]
  | cons c chars ih =>
    rw [List.flatMap_cons, charsOnto_units, ih]
    simp

theorem decode_encode (text : String) : decode (encode text) = some text := by
  have small : ∀ unit ∈ text.toList.flatMap units, unit < 0x10000 := by
    intro unit member
    obtain ⟨c, _, member⟩ := List.mem_flatMap.1 member
    exact lt_of_mem_units member
  have units := unitsOnto_encodeUnits small []
  have chars := charsOnto_flatMap_units text.toList []
  rw [List.reverse_nil, List.nil_append] at units chars
  simp [decode, encode, units, chars]

end StackMaps.ModifiedUtf8
