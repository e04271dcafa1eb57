import StackMaps.Proofs.ClassFile.Text

/-! Which bytes spell a text. More than one group may stand for a unit, but only a shortest one is
ever written. -/

namespace StackMaps.ModifiedUtf8

namespace Group

theorem unit_lt (g : Group) : g.unit < 0x10000 := by
  cases g <;> rw [unit] <;> omega

theorem bounds_of_mem {g : Group} {b : UInt8} (there : b ∈ g.bytes) : 0 < b.toNat ∧ b.toNat < 0xF0 := by
  cases g <;> simp only [bytes, List.mem_cons, List.not_mem_nil, or_false] at there
  case one => subst there; omega
  case two => obtain rfl | rfl := there <;> omega
  case three => obtain rfl | rfl | rfl := there <;> omega

theorem append_inj {g g' : Group} {rest rest' : List UInt8}
    (same : g.bytes ++ rest = g'.bytes ++ rest') : g = g' ∧ rest = rest' := by
  cases g <;> cases g' <;>
    simp only [bytes, List.cons_append, List.nil_append, List.cons.injEq] at same <;>
    obtain ⟨rfl, same⟩ := same
  case one.one => exact ⟨rfl, same⟩
  case two.two => obtain ⟨rfl, rfl⟩ := same; exact ⟨rfl, rfl⟩
  case three.three => obtain ⟨rfl, rfl, rfl⟩ := same; exact ⟨rfl, rfl⟩
  -- The lead bytes of groups of different lengths differ.
  all_goals omega

theorem flatMap_bytes_inj {gs gs' : List Group} (same : gs.flatMap bytes = gs'.flatMap bytes) :
    gs = gs' := by
  have nonempty (g : Group) (rest : List UInt8) : g.bytes ++ rest ≠ [] := by cases g <;> simp [bytes]
  induction gs generalizing gs' with
  | nil =>
    cases gs' with
    | nil => rfl
    | cons g' gs' => exact absurd same.symm (nonempty g' _)
  | cons g gs ih =>
    cases gs' with
    | nil => exact absurd same (nonempty g _)
    | cons g' gs' =>
      obtain ⟨rfl, rest⟩ := append_inj same
      rw [ih rest]

theorem unitsOnto_flatMap_bytes (gs : List Group) (done : List Nat) :
    unitsOnto done (gs.flatMap bytes) = some (done.reverse ++ gs.map unit) := by
  induction gs generalizing done with
  | nil => simp [unitsOnto]
  | cons g gs ih =>
    rw [List.flatMap_cons, unitsOnto_bytes, ih]
    simp

/-- Bytes that are read are split into groups. -/
theorem exists_of_unitsOnto {done units : List Nat} {input : List UInt8}
    (ok : unitsOnto done input = some units) : ∃ gs : List Group, input = gs.flatMap bytes := by
  fun_induction unitsOnto done input with
  | case1 => exact ⟨[], rfl⟩
  | case2 _ lead _ _ leads ih =>
    obtain ⟨gs, rfl⟩ := ih ok
    exact ⟨one lead (by omega) :: gs, rfl⟩
  | case3 _ lead _ _ leads last _ ends ih =>
    obtain ⟨gs, rfl⟩ := ih ok
    exact ⟨two lead last (by omega) (isContinuation_iff.1 ends) :: gs, rfl⟩
  | case6 _ lead _ _ _ leads middle last _ continues ih =>
    obtain ⟨gs, rfl⟩ := ih ok
    exact ⟨three lead middle last (by omega) (isContinuation_iff.1 continues.1)
      (isContinuation_iff.1 continues.2) :: gs, rfl⟩
  | _ => cases ok

theorem IsShortest.unique {g g' : Group} (shortest : g.IsShortest) (shortest' : g'.IsShortest)
    (same : g.unit = g'.unit) : g = g' := by
  cases g <;> cases g' <;> simp only [IsShortest, unit] at shortest shortest' same
  case one.one lead _ lead' _ =>
    obtain rfl : lead = lead' := UInt8.toNat_inj.1 same
    rfl
  case two.two lead last _ _ lead' last' _ _ =>
    obtain rfl : lead = lead' := UInt8.toNat_inj.1 (by omega)
    obtain rfl : last = last' := UInt8.toNat_inj.1 (by omega)
    rfl
  case three.three lead middle last _ _ _ lead' middle' last' _ _ _ =>
    obtain rfl : lead = lead' := UInt8.toNat_inj.1 (by omega)
    obtain rfl : middle = middle' := UInt8.toNat_inj.1 (by omega)
    obtain rfl : last = last' := UInt8.toNat_inj.1 (by omega)
    rfl
  all_goals omega

theorem encodeUnit_unit {g : Group} : encodeUnit g.unit = g.bytes ↔ g.IsShortest := by
  obtain ⟨g', written, same, shortest'⟩ := exists_shortest g.unit_lt
  rw [← written]
  constructor
  · intro bytes
    obtain ⟨rfl, _⟩ := append_inj (congrArg (· ++ []) bytes)
    exact shortest'
  · intro shortest
    rw [shortest'.unique shortest same]

theorem flatMap_encodeUnit {gs : List Group} :
    (gs.map unit).flatMap encodeUnit = gs.flatMap bytes ↔ ∀ g ∈ gs, g.IsShortest := by
  induction gs with
  | nil => simp
  | cons g gs ih =>
    rw [List.map_cons, List.flatMap_cons, List.flatMap_cons, List.forall_mem_cons, ← ih,
      ← encodeUnit_unit]
    constructor
    · obtain ⟨g', written, _⟩ := exists_shortest g.unit_lt
      rw [← written]
      intro same
      obtain ⟨rfl, rest⟩ := append_inj same
      exact ⟨rfl, rest⟩
    · rintro ⟨first, rest⟩
      rw [first, rest]

end Group

/-- Some surrogate has no partner: a high one that no low one follows, or a low one that follows no
high one. -/
def HasUnpaired (units : List Nat) : Prop := ∃ before u after, units = before ++ u :: after ∧
  (isHighSurrogate u ∧ ¬ after.head?.any isLowSurrogate ∨
    isLowSurrogate u ∧ ¬ before.getLast?.any isHighSurrogate)

section

variable {u v : Nat} {us : List Nat} {done chars : List Char}

theorem any_getLast?_cons {α : Type} {p : α → Bool} {x : α} (fails : ¬ p x) (xs : List α) :
    (x :: xs).getLast?.any p = xs.getLast?.any p := by
  cases xs with
  | nil => simpa using fails
  | cons y ys => rw [List.getLast?_cons_cons]

theorem hasUnpaired_cons (notHigh : ¬ isHighSurrogate u) (notLow : ¬ isLowSurrogate u) :
    HasUnpaired (u :: us) ↔ HasUnpaired us := by
  constructor
  · rintro ⟨before, x, after, same, alone⟩
    cases before with
    | nil =>
      obtain ⟨rfl, rfl⟩ := List.cons.inj same
      exact absurd alone (by simp [notHigh, notLow])
    | cons y before =>
      obtain ⟨rfl, rfl⟩ := List.cons.inj same
      rw [any_getLast?_cons notHigh] at alone
      exact ⟨before, x, after, rfl, alone⟩
  · rintro ⟨before, x, after, rfl, alone⟩
    exact ⟨u :: before, x, after, rfl, by rwa [any_getLast?_cons notHigh]⟩

theorem hasUnpaired_pair (high : isHighSurrogate u) (low : isLowSurrogate v) :
    HasUnpaired (u :: v :: us) ↔ HasUnpaired us := by
  have notLow : ¬ isLowSurrogate u := by
    rw [isHighSurrogate_iff] at high
    rw [isLowSurrogate_iff]
    omega
  have notHigh : ¬ isHighSurrogate v := by
    rw [isLowSurrogate_iff] at low
    rw [isHighSurrogate_iff]
    omega
  constructor
  · rintro ⟨before, x, after, same, alone⟩
    match before with
    | [] =>
      obtain ⟨rfl, rfl⟩ := List.cons.inj same
      exact absurd alone (by simp [low, notLow])
    | [y] =>
      simp only [List.cons_append, List.nil_append, List.cons.injEq] at same
      obtain ⟨rfl, rfl, rfl⟩ := same
      exact absurd alone (by simp [high, notHigh])
    | y :: z :: before =>
      simp only [List.cons_append, List.cons.injEq] at same
      obtain ⟨rfl, rfl, rfl⟩ := same
      rw [List.getLast?_cons_cons, any_getLast?_cons notHigh] at alone
      exact ⟨before, x, after, rfl, alone⟩
  · rintro ⟨before, x, after, rfl, alone⟩
    exact ⟨u :: v :: before, x, after, rfl,
      by rwa [List.getLast?_cons_cons, any_getLast?_cons notHigh]⟩

theorem charsOnto_eq_none : charsOnto done us = none ↔ HasUnpaired us := by
  fun_induction charsOnto done us with
  | case1 => simp [HasUnpaired]
  | case2 _ _ high _ _ low ih => rw [ih, hasUnpaired_pair high low]
  | case3 _ u high v rest notLow =>
    exact iff_of_true rfl ⟨[], u, v :: rest, rfl, .inl ⟨high, by simpa using notLow⟩⟩
  | case4 _ u rest high last =>
    cases rest with
    | nil => exact iff_of_true rfl ⟨[], u, [], rfl, .inl ⟨high, by simp⟩⟩
    | cons v rest => exact (last v rest rfl).elim
  | case5 _ u rest _ low => exact iff_of_true rfl ⟨[], u, rest, rfl, .inr ⟨low, by simp⟩⟩
  | case6 _ _ _ notHigh notLow ih => rw [ih, hasUnpaired_cons notHigh notLow]

theorem toNat_charOfNat {n : Nat} (valid : n.isValidChar) : (Char.ofNat n).toNat = n := by
  rw [Char.ofNat, dif_pos valid]
  rfl

theorem exists_of_charsOnto (ok : charsOnto done us = some chars) (small : ∀ u ∈ us, u < 0x10000) :
    ∃ cs : List Char, us = cs.flatMap units := by
  fun_induction charsOnto done us with
  | case1 => exact ⟨[], rfl⟩
  | case2 _ u high v rest low ih =>
    obtain ⟨cs, rfl⟩ := ih ok fun w there =>
      small w (List.mem_cons_of_mem _ (List.mem_cons_of_mem _ there))
    rw [isHighSurrogate_iff] at high
    rw [isLowSurrogate_iff] at low
    have scalar := toNat_charOfNat (n := 0x10000 + (u - 0xD800) * 0x400 + (v - 0xDC00))
      (.inr (by omega))
    have first : 0xD800 + (0x10000 + (u - 0xD800) * 0x400 + (v - 0xDC00) - 0x10000) / 0x400 = u := by
      omega
    have second : 0xDC00 + (0x10000 + (u - 0xD800) * 0x400 + (v - 0xDC00) - 0x10000) % 0x400 = v := by
      omega
    refine ⟨Char.ofNat (0x10000 + (u - 0xD800) * 0x400 + (v - 0xDC00)) :: cs, ?_⟩
    rw [List.flatMap_cons, units, if_neg (by omega), scalar, first, second]
    rfl
  | case6 _ u rest notHigh notLow ih =>
    obtain ⟨cs, rfl⟩ := ih ok fun w there => small w (List.mem_cons_of_mem _ there)
    have least := small u List.mem_cons_self
    rw [isHighSurrogate_iff] at notHigh
    rw [isLowSurrogate_iff] at notLow
    have scalar := toNat_charOfNat (n := u) (by unfold Nat.isValidChar; omega)
    refine ⟨Char.ofNat u :: cs, ?_⟩
    rw [List.flatMap_cons, units, if_pos (by omega), scalar]
    rfl
  | _ => cases ok

theorem charsOnto_eq_some (small : ∀ u ∈ us, u < 0x10000) :
    charsOnto [] us = some chars ↔ us = chars.flatMap units := by
  constructor
  · intro ok
    obtain ⟨cs, rfl⟩ := exists_of_charsOnto ok small
    rw [charsOnto_flatMap_units] at ok
    rw [← Option.some.inj ok]
    rfl
  · rintro rfl
    exact charsOnto_flatMap_units chars []

end

section

variable {gs : List Group} {bytes : List UInt8} {text : String}

theorem decode_flatMap_bytes (gs : List Group) :
    decode (gs.flatMap Group.bytes) = (charsOnto [] (gs.map Group.unit)).map String.ofList := by
  rw [decode, Group.unitsOnto_flatMap_bytes, List.reverse_nil, List.nil_append]
  simp only [Option.bind_eq_bind, Option.bind_some, Option.pure_def, Option.map_eq_bind]
  rfl

theorem decode_eq_some_of_groups : decode (gs.flatMap Group.bytes) = some text ↔
    gs.map Group.unit = text.toList.flatMap units := by
  have small : ∀ u ∈ gs.map Group.unit, u < 0x10000 := by
    rintro u there
    obtain ⟨g, _, rfl⟩ := List.mem_map.1 there
    exact g.unit_lt
  rw [decode_flatMap_bytes, Option.map_eq_some_iff]
  constructor
  · rintro ⟨chars, ok, rfl⟩
    rw [String.toList_ofList]
    exact (charsOnto_eq_some small).1 ok
  · intro same
    exact ⟨text.toList, (charsOnto_eq_some small).2 same, String.ofList_toList⟩

theorem exists_groups (ok : decode bytes = some text) :
    ∃ gs : List Group, bytes = gs.flatMap Group.bytes := by
  obtain ⟨units, read, _⟩ := Option.bind_eq_some_iff.1 ok
  exact Group.exists_of_unitsOnto read

theorem decode_eq_none : decode bytes = none ↔
    (¬ ∃ gs : List Group, bytes = gs.flatMap Group.bytes) ∨
      ∃ gs : List Group, bytes = gs.flatMap Group.bytes ∧ HasUnpaired (gs.map Group.unit) := by
  by_cases split : ∃ gs : List Group, bytes = gs.flatMap Group.bytes
  · obtain ⟨gs, rfl⟩ := split
    rw [decode_flatMap_bytes, Option.map_eq_none_iff, charsOnto_eq_none]
    constructor
    · exact fun alone => .inr ⟨gs, rfl, alone⟩
    · rintro (none | ⟨gs', same, alone⟩)
      · exact absurd ⟨gs, rfl⟩ none
      · rwa [Group.flatMap_bytes_inj same]
  · refine iff_of_true ?_ (.inl split)
    cases ok : decode bytes with
    | none => rfl
    | some text => exact absurd (exists_groups ok) split

/-- A text is read again from what is written for it, which has no byte that is zero or above those
of a group. What is read as a text is split into groups, and is what is written for the text if and
only if all of them are shortest ones. What is read as no text cannot be split into groups, or has a
surrogate without its partner. -/
theorem spellings :
    (∀ text, decode (encode text) = some text ∧ ∀ b ∈ encode text, b ≠ 0 ∧ b < 0xF0) ∧
    (∀ bytes text, decode bytes = some text → ∃ gs : List Group, bytes = gs.flatMap Group.bytes ∧
      (encode text = bytes ↔ ∀ g ∈ gs, g.IsShortest)) ∧
    ∀ bytes, decode bytes = none ↔ (¬ ∃ gs : List Group, bytes = gs.flatMap Group.bytes) ∨
      ∃ gs : List Group, bytes = gs.flatMap Group.bytes ∧ HasUnpaired (gs.map Group.unit) := by
  refine ⟨fun text => ⟨decode_encode text, fun b there => ?_⟩, fun bytes text ok => ?_,
    fun bytes => decode_eq_none⟩
  · obtain ⟨gs, same⟩ := exists_groups (decode_encode text)
    rw [same] at there
    obtain ⟨g, _, there⟩ := List.mem_flatMap.1 there
    obtain ⟨positive, low⟩ := Group.bounds_of_mem there
    refine ⟨?_, UInt8.lt_iff_toNat_lt.2 low⟩
    rintro rfl
    exact absurd positive (by decide)
  · obtain ⟨gs, rfl⟩ := exists_groups ok
    refine ⟨gs, rfl, ?_⟩
    rw [encode, ← decode_eq_some_of_groups.1 ok]
    exact Group.flatMap_encodeUnit

/-- U+0000 is written in two bytes, and `A` can be read from two but is not written so. A high
surrogate in front of `A` is read as nothing. -/
theorem spellings_overlong : (0xC0 ∈ encode "\x00" ∧ (0xC0 : UInt8) ≠ 0 ∧ (0xC0 : UInt8) < 0xF0) ∧
    decode [0xC1, 0x81] = some "A" ∧ encode "A" ≠ [0xC1, 0x81] ∧
    decode [0xED, 0xA0, 0x80, 0x41] = none := by
  obtain ⟨texts, shortest, refused⟩ := spellings
  have there : 0xC0 ∈ encode "\x00" := by decide
  have read : decode [0xC1, 0x81] = some "A" := by rfl
  let long : List Group := [.two 0xC1 0x81 (by decide) (by decide)]
  let lone : List Group :=
    [.three 0xED 0xA0 0x80 (by decide) (by decide) (by decide), .one 0x41 (by decide)]
  refine ⟨⟨there, (texts "\x00").2 0xC0 there⟩, read, fun same => ?_,
    (refused _).2 (.inr ⟨lone, rfl, [], 0xD800, [0x41], rfl, .inl ⟨rfl, by decide⟩⟩)⟩
  obtain ⟨gs, split, written⟩ := shortest _ _ read
  obtain rfl : gs = long := Group.flatMap_bytes_inj split.symm
  exact absurd (written.1 same _ List.mem_cons_self) (by simp [Group.IsShortest, Group.unit])

end
end StackMaps.ModifiedUtf8
