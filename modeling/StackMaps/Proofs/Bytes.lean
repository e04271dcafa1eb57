import Mathlib.Algebra.Ring.Nat
import StackMaps.Bytes
import StackMaps.Proofs.Answer

/-! Words and lists that are written are read again, what comes after them is left alone, and nothing
else is read as them. -/

namespace StackMaps

theorem bigEndian_zero (n : Nat) : bigEndian 0 n = [] := rfl

theorem bigEndian_succ (width n : Nat) :
    bigEndian (width + 1) n = UInt8.ofNat (n / 256 ^ width) :: bigEndian width n := rfl

@[simp] theorem length_bigEndian (width n : Nat) : (bigEndian width n).length = width := by
  induction width with
  | zero => rfl
  | succ width ih => rw [bigEndian_succ, List.length_cons, ih]

@[simp] theorem length_encodeUInt16 (n : UInt16) : (encodeUInt16 n).length = 2 :=
  length_bigEndian 2 n.toNat

@[simp] theorem length_encodeList {α : Type} (encode : α → List UInt8) (xs : List α) :
    (encodeList encode xs).length = 2 + (xs.flatMap encode).length := by
  rw [encodeList, List.length_append, length_bigEndian]

section

variable {m : Type → Type} [Monad m] (byte : m UInt8)

theorem readNumber_zero : readNumber byte 0 = pure 0 := rfl

theorem readNumber_succ (width : Nat) : readNumber byte (width + 1) = (do
    let high ← byte
    let low ← readNumber byte width
    return high.toNat * 256 ^ width + low) := rfl

end

/-- The reader takes these bytes for a value, whatever comes after them. -/
def Reads {α : Type} (d : Decoder α) (bytes : List UInt8) (a : α) : Prop :=
  ∀ rest, d (bytes ++ rest) = .ok (a, rest)

namespace Reads

variable {α β : Type} {d : Decoder α} {bytes bytes' : List UInt8} {a : α}

theorem pure (a : α) : Reads (Pure.pure a) [] a := fun _ => rfl

theorem bind {f : α → Decoder β} {b : β} (first : Reads d bytes a) (next : Reads (f a) bytes' b) :
    Reads (d >>= f) (bytes ++ bytes') b := by
  intro rest
  rw [List.append_assoc]
  change (d (bytes ++ (bytes' ++ rest)) >>= fun p => f p.1 p.2) = _
  rw [first]
  exact next rest

theorem map {f : α → β} (reads : Reads d bytes a) : Reads (f <$> d) bytes (f a) := by
  rw [← List.append_nil bytes, map_eq_pure_bind]
  exact reads.bind (.pure _)

theorem uint8 (n : UInt8) : Reads Decoder.uint8 [n] n := fun _ => rfl

theorem cons {f : UInt8 → Decoder β} {tag : UInt8} {b : β} (next : Reads (f tag) bytes b) :
    Reads (Decoder.uint8 >>= f) (tag :: bytes) b := (uint8 tag).bind next

theorem number (width n : Nat) :
    Reads (Decoder.number width) (bigEndian width n) (n % 256 ^ width) := by
  induction width with
  | zero =>
    rw [Nat.pow_zero, Nat.mod_one]
    exact .pure 0
  | succ width ih =>
    have whole : (UInt8.ofNat (n / 256 ^ width)).toNat * 256 ^ width + n % 256 ^ width =
        n % 256 ^ (width + 1) := by
      rw [Nat.mod_pow_succ (k := width), UInt8.toNat_ofNat', Nat.mul_comm, Nat.add_comm]
    rw [← whole]
    refine cons ?_
    rw [← List.append_nil (bigEndian width n)]
    exact ih.bind (.pure _)

theorem number_of_lt {width n : Nat} (small : n < 256 ^ width) :
    Reads (Decoder.number width) (bigEndian width n) n := by
  have reads := number width n
  rwa [Nat.mod_eq_of_lt small] at reads

theorem uint16 (n : UInt16) : Reads Decoder.uint16 (encodeUInt16 n) n := by
  have small : n.toNat < 256 ^ 2 := n.toNat_lt
  have reads := (number_of_lt small).map (f := UInt16.ofNat)
  rwa [UInt16.ofNat_toNat] at reads

theorem times {encode : α → List UInt8} {xs : List α} (each : ∀ x ∈ xs, Reads d (encode x) x) :
    Reads (Decoder.times d xs.length) (xs.flatMap encode) xs := by
  suffices onto : ∀ done, Reads (readTimesOnto d xs.length done) (xs.flatMap encode) (done.reverse ++ xs) from onto []
  induction xs with
  | nil =>
    intro done
    rw [List.append_nil]
    exact .pure _
  | cons x xs ih =>
    intro done
    obtain ⟨first, each⟩ := List.forall_mem_cons.1 each
    have rest := ih each (x :: done)
    rw [List.reverse_cons, List.append_assoc] at rest
    exact first.bind rest

theorem list {encode : α → List UInt8} {xs : List α} (few : xs.length < 65536)
    (each : ∀ x ∈ xs, Reads d (encode x) x) : Reads (Decoder.list d) (encodeList encode xs) xs :=
  (number_of_lt few).bind (times each)

end Reads

theorem mod_eq_of_bigEndian_eq {width m n : Nat} (same : bigEndian width m = bigEndian width n) :
    m % 256 ^ width = n % 256 ^ width := by
  have first := Reads.number width m []
  rw [same, Reads.number width n []] at first
  simpa using first.symm

theorem bigEndian_add_mul (width extra k n : Nat) :
    bigEndian width (k * 256 ^ (width + extra) + n) = bigEndian width n := by
  induction width generalizing extra with
  | zero => rfl
  | succ width ih =>
    have power : 256 ^ (width + 1 + extra) = 256 ^ width * (256 ^ extra * 256) := by
      rw [← Nat.pow_succ, ← Nat.pow_add]
      congr 1
      omega
    have digit : UInt8.ofNat ((k * 256 ^ (width + 1 + extra) + n) / 256 ^ width) =
        UInt8.ofNat (n / 256 ^ width) := by
      rw [power, Nat.mul_left_comm, Nat.mul_add_div (Nat.pow_pos (by decide)), ← Nat.mul_assoc]
      apply UInt8.toNat_inj.1
      rw [UInt8.toNat_ofNat', UInt8.toNat_ofNat']
      omega
    have lower := ih (extra + 1)
    rw [show width + (extra + 1) = width + 1 + extra by omega] at lower
    rw [bigEndian_succ, bigEndian_succ, digit, lower]

namespace Decoder

variable {α β : Type} {d : Decoder α} {input rest : List UInt8}

theorem bind_eq_ok {f : α → Decoder β} {b : β} : (d >>= f) input = .ok (b, rest) ↔
    ∃ a middle, d input = .ok (a, middle) ∧ f a middle = .ok (b, rest) := by
  change (d input >>= fun p => f p.1 p.2) = .ok (b, rest) ↔ _
  rw [StackMaps.bind_eq_ok]
  simp

theorem pure_eq_ok {a b : α} :
    (Pure.pure a : Decoder α) input = .ok (b, rest) ↔ a = b ∧ input = rest := by
  change Except.ok (a, input) = .ok (b, rest) ↔ _
  simp

theorem map_eq_ok {f : α → β} {b : β} : (f <$> d) input = .ok (b, rest) ↔
    ∃ a, d input = .ok (a, rest) ∧ f a = b := by
  rw [map_eq_pure_bind, bind_eq_ok]
  simp only [pure_eq_ok]
  constructor
  · rintro ⟨a, middle, ok, rfl, rfl⟩
    exact ⟨a, ok, rfl⟩
  · rintro ⟨a, ok, rfl⟩
    exact ⟨a, rest, ok, rfl, rfl⟩

theorem uint8_eq_ok {b : UInt8} : uint8 input = .ok (b, rest) ↔ input = b :: rest := by
  cases input <;> simp [uint8]

/-- The reader takes exactly what is written for the values that satisfy `P`. -/
def Exact (d : Decoder α) (encode : α → List UInt8) (P : α → Prop) : Prop :=
  ∀ input a rest, d input = .ok (a, rest) ↔ P a ∧ input = encode a ++ rest

theorem Exact.reads {encode : α → List UInt8} {P : α → Prop} (exact : Exact d encode P) {a : α}
    (holds : P a) : Reads d (encode a) a := fun rest => (exact _ a rest).2 ⟨holds, rfl⟩

theorem number_exact (width : Nat) : Exact (number width) (bigEndian width) (· < 256 ^ width) := by
  intro input n rest
  refine ⟨fun ok => ?_, fun ⟨small, written⟩ => ?_⟩
  · induction width generalizing input n with
    | zero =>
      obtain ⟨rfl, rfl⟩ := pure_eq_ok.1 ok
      simp [bigEndian_zero]
    | succ width ih =>
      obtain ⟨high, middle, first, ok⟩ := bind_eq_ok.1 ok
      obtain ⟨low, last, second, ok⟩ := bind_eq_ok.1 ok
      obtain ⟨rfl, rfl⟩ := pure_eq_ok.1 ok
      obtain rfl := uint8_eq_ok.1 first
      obtain ⟨small, rfl⟩ := ih _ _ second
      have byte : high.toNat < 256 := high.toNat_lt
      have front : (high.toNat * 256 ^ width + low) / 256 ^ width = high.toNat := by
        rw [Nat.mul_comm, Nat.mul_add_div (Nat.pow_pos (by decide)), Nat.div_eq_of_lt small,
          Nat.add_zero]
      have back := bigEndian_add_mul width 0 high.toNat low
      rw [Nat.add_zero] at back
      have most : high.toNat * 256 ^ width ≤ 255 * 256 ^ width := Nat.mul_le_mul_right _ (by omega)
      refine ⟨?_, ?_⟩
      · rw [Nat.pow_succ]
        omega
      · rw [bigEndian_succ, front, back, UInt8.ofNat_toNat]
        rfl
  · rw [written]
    exact Reads.number_of_lt small rest

theorem word_exact {ofNat : Nat → α} {toNat : α → Nat} {width : Nat}
    (small : ∀ a, toNat a < 256 ^ width) (toNat_ofNat : ∀ n, n < 256 ^ width → toNat (ofNat n) = n)
    (ofNat_toNat : ∀ a, ofNat (toNat a) = a) :
    Exact (ofNat <$> number width) (fun a => bigEndian width (toNat a)) fun _ => True := by
  intro input a rest
  simp only [map_eq_ok, number_exact width _ _ _]
  constructor
  · rintro ⟨n, ⟨less, rfl⟩, rfl⟩
    simp [toNat_ofNat n less]
  · rintro ⟨_, rfl⟩
    exact ⟨toNat a, ⟨small a, rfl⟩, ofNat_toNat a⟩

theorem uint16_exact : Exact uint16 encodeUInt16 fun _ => True :=
  word_exact UInt16.toNat_lt (fun _ => UInt16.toNat_ofNat_of_lt') fun _ => UInt16.ofNat_toNat

theorem uint32_exact : Exact uint32 encodeUInt32 fun _ => True :=
  word_exact UInt32.toNat_lt (fun _ => UInt32.toNat_ofNat_of_lt') fun _ => UInt32.ofNat_toNat

theorem uint64_exact : Exact uint64 encodeUInt64 fun _ => True :=
  word_exact UInt64.toNat_lt (fun _ => UInt64.toNat_ofNat_of_lt') fun _ => UInt64.ofNat_toNat

theorem bytes_eq_ok {count : Nat} {bs : List UInt8} :
    bytes count input = .ok (bs, rest) ↔ bs.length = count ∧ input = bs ++ rest := by
  simp only [bytes]
  split
  next short =>
    simp only [reduceCtorEq, false_iff, not_and]
    rintro rfl rfl
    simp at short
  next enough =>
    simp only [Except.ok.injEq, Prod.mk.injEq]
    constructor
    · rintro ⟨rfl, rfl⟩
      rw [List.length_take] at enough ⊢
      exact ⟨by omega, (List.take_append_drop count input).symm⟩
    · rintro ⟨rfl, rfl⟩
      simp

theorem body_exact : Exact body encodeBody (·.length < 2 ^ 32) := by
  intro input bs rest
  simp only [body, bind_eq_ok, number_exact 4 _ _ _, bytes_eq_ok]
  constructor
  · rintro ⟨count, _, ⟨small, rfl⟩, rfl, rfl⟩
    exact ⟨small, by rw [encodeBody, List.append_assoc]⟩
  · rintro ⟨small, rfl⟩
    exact ⟨bs.length, bs ++ rest, ⟨small, by rw [encodeBody, List.append_assoc]⟩, rfl, rfl⟩

theorem readTimesOnto_eq_ok {encode : α → List UInt8} {P : α → Prop} (exact : Exact d encode P)
    {count : Nat} {done xs : List α} : readTimesOnto d count done input = .ok (xs, rest) ↔
      ∃ more, xs = done.reverse ++ more ∧ more.length = count ∧ (∀ x ∈ more, P x) ∧
        input = more.flatMap encode ++ rest := by
  induction count generalizing done input with
  | zero =>
    rw [readTimesOnto, pure_eq_ok]
    constructor
    · rintro ⟨rfl, rfl⟩
      exact ⟨[], by simp⟩
    · rintro ⟨more, rfl, none, _, rfl⟩
      obtain rfl := List.length_eq_zero_iff.1 none
      simp
  | succ count ih =>
    simp only [readTimesOnto, bind_eq_ok, exact _ _ _, ih]
    constructor
    · rintro ⟨x, _, ⟨holds, rfl⟩, more, rfl, rfl, all, rfl⟩
      exact ⟨x :: more, by simp, rfl, List.forall_mem_cons.2 ⟨holds, all⟩, by simp⟩
    · rintro ⟨more, rfl, size, all, rfl⟩
      cases more with
      | nil => cases size
      | cons x more =>
        obtain ⟨holds, all⟩ := List.forall_mem_cons.1 all
        exact ⟨x, more.flatMap encode ++ rest, ⟨holds, by simp⟩, more, by simp, Nat.succ.inj size, all, rfl⟩

theorem times_exact {encode : α → List UInt8} {P : α → Prop} (exact : Exact d encode P)
    (count : Nat) :
    Exact (times d count) (List.flatMap encode) fun xs => xs.length = count ∧ ∀ x ∈ xs, P x := by
  intro input xs rest
  simp [times, readTimes, readTimesOnto_eq_ok exact, and_assoc]

theorem list_exact {encode : α → List UInt8} {P : α → Prop} (exact : Exact d encode P) :
    Exact (list d) (encodeList encode) fun xs => xs.length < 65536 ∧ ∀ x ∈ xs, P x := by
  intro input xs rest
  simp only [list, bind_eq_ok, number_exact 2 _ _ _, times_exact exact _ _ _ _]
  constructor
  · rintro ⟨count, _, ⟨small, rfl⟩, ⟨rfl, all⟩, rfl⟩
    exact ⟨⟨small, all⟩, by simp [encodeList]⟩
  · rintro ⟨⟨small, all⟩, rfl⟩
    exact ⟨xs.length, xs.flatMap encode ++ rest, ⟨small, by simp [encodeList]⟩, ⟨rfl, all⟩, rfl⟩

theorem list_map (item : Decoder α) (f : α → β) :
    list (f <$> item) = List.map f <$> list item := by
  have onto (count : Nat) (done : List α) : readTimesOnto (f <$> item) count (done.map f) =
      List.map f <$> readTimesOnto item count done := by
    induction count generalizing done with
    | zero => simp [readTimesOnto]
    | succ count ih => simp [readTimesOnto, map_bind, ← ih]
  simp only [list, times, readTimes, map_bind]
  exact bind_congr fun count => onto count []

/-- The bytes are those that are written, or there are more of them. -/
def Outruns (input written : List UInt8) : Prop := input = written ∨ written.length < input.length

theorem Outruns.le {written : List UInt8} (outruns : Outruns input written) :
    written.length ≤ input.length := by
  obtain rfl | more := outruns
  · exact Nat.le_refl _
  · exact Nat.le_of_lt more

theorem Outruns.append {front middle written : List UInt8} (first : Outruns input (front ++ middle))
    (later : Outruns middle written) : Outruns input (front ++ written) := by
  obtain rfl | more := later
  · exact first
  · have fewer := first.le
    simp only [List.length_append] at fewer
    exact .inr (by rw [List.length_append]; omega)

/-- Values with the property are read, from what is written for them or from more bytes. -/
def Shortens (d : Decoder α) (encode : α → List UInt8) (P : α → Prop) : Prop :=
  ∀ ⦃input a rest⦄, d input = .ok (a, rest) → P a ∧ Outruns input (encode a ++ rest)

variable {encode : α → List UInt8} {P : α → Prop}

theorem Shortens.times (shortens : Shortens d encode P) (count : Nat) :
    Shortens (times d count) (List.flatMap encode) fun xs =>
      xs.length = count ∧ ∀ x ∈ xs, P x := by
  suffices onto : ∀ (count : Nat) (done : List α) ⦃input xs rest⦄,
      readTimesOnto d count done input = .ok (xs, rest) → ∃ more, xs = done.reverse ++ more ∧
        (more.length = count ∧ ∀ x ∈ more, P x) ∧ Outruns input (more.flatMap encode ++ rest) by
    intro input xs rest ok
    obtain ⟨_, rfl, holds, written⟩ := onto count [] ok
    exact ⟨holds, written⟩
  intro count
  induction count with
  | zero =>
    intro done input xs rest ok
    obtain ⟨rfl, rfl⟩ := pure_eq_ok.1 ok
    exact ⟨[], by simp, by simp, .inl rfl⟩
  | succ count ih =>
    intro done input xs rest ok
    obtain ⟨x, middle, first, later⟩ := bind_eq_ok.1 ok
    obtain ⟨holds, here⟩ := shortens first
    obtain ⟨more, rfl, ⟨rfl, all⟩, there⟩ := ih (x :: done) later
    refine ⟨x :: more, by simp, ⟨rfl, List.forall_mem_cons.2 ⟨holds, all⟩⟩, ?_⟩
    rw [List.flatMap_cons, List.append_assoc]
    exact here.append there

theorem Shortens.list (shortens : Shortens d encode P) :
    Shortens (list d) (encodeList encode) fun xs => xs.length < 65536 ∧ ∀ x ∈ xs, P x := by
  intro input xs rest ok
  obtain ⟨count, middle, first, later⟩ := bind_eq_ok.1 ok
  obtain ⟨small, rfl⟩ := (number_exact 2 _ _ _).1 first
  obtain ⟨⟨rfl, all⟩, written⟩ := shortens.times count later
  rw [encodeList, List.append_assoc]
  exact ⟨⟨small, all⟩, Outruns.append (.inl rfl) written⟩

end Decoder
end StackMaps
