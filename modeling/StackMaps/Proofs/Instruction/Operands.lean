import StackMaps.Proofs.Bytes
import StackMaps.Proofs.Instruction.Reader
import StackMaps.Proofs.Instruction.Written

/-! The readers of operands take exactly what is written for a value: its digits, the most significant
byte first. -/

namespace StackMaps.CodeReader

variable {α β γ δ : Type} {offset next length here : Nat} {input rest : List UInt8}

/-- What is read is what is written for something related to it, which takes up that many bytes. -/
def ReadsAs (r : CodeReader α) (encode : β → List UInt8) (R : β → α → Prop) : Prop :=
  ∀ ⦃offset input a next rest⦄, r ⟨offset, input⟩ = .ok (a, ⟨next, rest⟩) ↔
    ∃ b, R b a ∧ input = encode b ++ rest ∧ next = offset + (encode b).length

theorem pure_eq_ok {a b : α} {c after : CodeCursor} :
    (pure a : CodeReader α) c = .ok (b, after) ↔ a = b ∧ c = after := by
  change Except.ok (a, c) = .ok (b, after) ↔ _
  simp

theorem map_eq_ok {r : CodeReader α} {f : α → γ} {b : γ} {c after : CodeCursor} :
    (f <$> r) c = .ok (b, after) ↔ ∃ a, r c = .ok (a, after) ∧ f a = b := by
  rw [map_eq_pure_bind, IsLocal.bind_eq_ok]
  constructor
  · rintro ⟨a, _, ok, same⟩
    cases same
    exact ⟨a, ok, rfl⟩
  · rintro ⟨a, ok, rfl⟩
    exact ⟨a, after, ok, rfl⟩

namespace ReadsAs

variable {r : CodeReader α} {encode : β → List UInt8} {R : β → α → Prop}

theorem map (reads : ReadsAs r encode R) (f : α → γ) :
    ReadsAs (f <$> r) encode fun b c => ∃ a, R b a ∧ f a = c := by
  intro offset input c next rest
  rw [map_eq_ok]
  constructor
  · rintro ⟨a, ok, rfl⟩
    obtain ⟨b, holds, taken, place⟩ := reads.1 ok
    exact ⟨b, ⟨a, holds, rfl⟩, taken, place⟩
  · rintro ⟨b, ⟨a, holds, rfl⟩, taken, place⟩
    exact ⟨a, reads.2 ⟨b, holds, taken, place⟩, rfl⟩

theorem view {encode : α → List UInt8} (reads : ReadsAs r encode Eq) {f : α → γ} {g : γ → α}
    (left : ∀ a, g (f a) = a) (right : ∀ c, f (g c) = c) :
    ReadsAs (f <$> r) (fun c => encode (g c)) Eq := by
  intro offset input c next rest
  rw [reads.map]
  constructor
  · rintro ⟨a, ⟨_, rfl, rfl⟩, taken, place⟩
    exact ⟨f a, rfl, by simpa only [left] using taken, by simpa only [left] using place⟩
  · rintro ⟨_, rfl, taken, place⟩
    exact ⟨_, ⟨_, rfl, right _⟩, taken, place⟩

theorem bind {f : α → CodeReader γ} {encode' : δ → List UInt8} {R' : α → δ → γ → Prop}
    (reads : ReadsAs r encode R) (reads' : ∀ a, ReadsAs (f a) encode' (R' a)) :
    ReadsAs (r >>= f) (fun p : β × δ => encode p.1 ++ encode' p.2)
      fun p c => ∃ a, R p.1 a ∧ R' a p.2 c := by
  intro offset input c next rest
  rw [IsLocal.bind_eq_ok]
  constructor
  · rintro ⟨a, ⟨middle, rest'⟩, ok, ok'⟩
    obtain ⟨b, holds, rfl, rfl⟩ := reads.1 ok
    obtain ⟨d, holds', rfl, rfl⟩ := (reads' a).1 ok'
    exact ⟨(b, d), ⟨a, holds, holds'⟩, by simp, by simp [Nat.add_assoc]⟩
  · rintro ⟨⟨b, d⟩, ⟨a, holds, holds'⟩, rfl, rfl⟩
    refine ⟨a, ⟨_, encode' d ++ rest⟩, reads.2 ⟨b, holds, by simp, rfl⟩, (reads' a).2 ?_⟩
    exact ⟨d, holds', rfl, by simp [Nat.add_assoc]⟩

theorem times (reads : ReadsAs r encode R) (count : Nat) :
    ReadsAs (readTimes r count) (fun bs : List β => bs.flatMap encode) fun bs as =>
      bs.length = count ∧ List.Forall₂ R bs as := by
  suffices onto : ∀ done, ReadsAs (readTimesOnto r count done)
      (fun bs : List β => bs.flatMap encode) fun bs as =>
        bs.length = count ∧ ∃ more, as = done.reverse ++ more ∧ List.Forall₂ R bs more by
    intro offset input as next rest
    rw [readTimes, onto]
    simp
  induction count with
  | zero =>
    intro done offset input as next rest
    rw [readTimesOnto, pure_eq_ok]
    constructor
    · rintro ⟨rfl, same⟩
      cases same
      exact ⟨[], ⟨rfl, [], by simp, .nil⟩, rfl, rfl⟩
    · rintro ⟨bs, ⟨none, more, rfl, each⟩, rfl, rfl⟩
      obtain rfl := List.length_eq_zero_iff.1 none
      cases each
      simp
  | succ count ih =>
    intro done offset input as next rest
    rw [readTimesOnto, reads.bind fun a => ih (a :: done)]
    constructor
    · rintro ⟨⟨b, bs⟩, ⟨a, holds, size, more, rfl, each⟩, taken, place⟩
      exact ⟨b :: bs, ⟨congrArg (· + 1) size, a :: more, by simp, .cons holds each⟩, taken, place⟩
    · rintro ⟨bs, ⟨size, more, rfl, each⟩, taken, place⟩
      cases each with
      | nil => cases size
      | @cons b a bs more holds each =>
        exact ⟨(b, bs), ⟨a, holds, Nat.succ.inj size, more, by simp, each⟩, taken, place⟩

end ReadsAs

theorem readsAs_uint8 : ReadsAs uint8 (fun b => [b]) Eq := by
  intro offset input b next rest
  cases input <;> simp [uint8, eq_comm, and_assoc, and_comm]

theorem readsAs_int8 : ReadsAs int8 (fun v => [v.toUInt8]) Eq :=
  readsAs_uint8.view (fun _ => rfl) fun _ => rfl

theorem readNumber_eq_ok {width n : Nat} :
    readNumber uint8 width ⟨offset, input⟩ = .ok (n, ⟨next, rest⟩) ↔
      Decoder.number width input = .ok (n, rest) ∧ next = offset + width := by
  induction width generalizing offset input n with
  | zero =>
    rw [Decoder.number, readNumber_zero, readNumber_zero, pure_eq_ok, Decoder.pure_eq_ok]
    simp [and_assoc, and_comm, eq_comm]
  | succ width ih =>
    rw [Decoder.number, readNumber_succ, readNumber_succ, IsLocal.bind_eq_ok, Decoder.bind_eq_ok]
    constructor
    · rintro ⟨high, ⟨_, _⟩, first, ok⟩
      obtain ⟨low, ⟨_, _⟩, second, same⟩ := IsLocal.bind_eq_ok.1 ok
      cases same
      obtain ⟨_, rfl, rfl, rfl⟩ := readsAs_uint8.1 first
      obtain ⟨number, place⟩ := ih.1 second
      exact ⟨⟨_, _, rfl, Decoder.bind_eq_ok.2 ⟨low, _, number, rfl⟩⟩, by simp at place; omega⟩
    · rintro ⟨⟨high, _, first, ok⟩, rfl⟩
      obtain ⟨low, _, second, same⟩ := Decoder.bind_eq_ok.1 ok
      obtain rfl := Decoder.uint8_eq_ok.1 first
      cases same
      have place : offset + (width + 1) = offset + 1 + width := by omega
      exact ⟨high, ⟨offset + 1, _⟩, rfl,
        IsLocal.bind_eq_ok.2 ⟨low, ⟨_, _⟩, ih.2 ⟨second, place⟩, rfl⟩⟩

theorem readsAs_word {width : Nat} {ofNat : Nat → α} {encode : α → List UInt8}
    (exact : Decoder.Exact (ofNat <$> Decoder.number width) encode fun _ => True)
    (long : ∀ a, (encode a).length = width) :
    ReadsAs (ofNat <$> readNumber uint8 width) encode Eq := by
  intro offset input a next rest
  have same : (ofNat <$> readNumber uint8 width) ⟨offset, input⟩ = .ok (a, ⟨next, rest⟩) ↔
      (ofNat <$> Decoder.number width) input = .ok (a, rest) ∧ next = offset + width := by
    simp only [Decoder.map_eq_ok, map_eq_ok, readNumber_eq_ok]
    constructor
    · rintro ⟨n, ⟨ok, place⟩, rfl⟩
      exact ⟨⟨n, ok, rfl⟩, place⟩
    · rintro ⟨⟨n, ok, rfl⟩, place⟩
      exact ⟨n, ⟨ok, place⟩, rfl⟩
  rw [same, exact _ _ _]
  simp [long]

theorem readsAs_uint16 : ReadsAs uint16 encodeUInt16 Eq :=
  readsAs_word Decoder.uint16_exact fun _ => length_bigEndian 2 _

theorem readsAs_int16 : ReadsAs int16 encodeInt16 Eq :=
  readsAs_uint16.view (fun _ => rfl) fun _ => rfl

theorem readsAs_int32 : ReadsAs int32 encodeInt32 Eq := by
  rw [int32, comp_map]
  exact (readsAs_word Decoder.uint32_exact fun _ => length_bigEndian 4 _).view
    (fun _ => rfl) fun _ => rfl

theorem absolute_eq_ok {relative : Int} {target : Nat} {c after : CodeCursor} :
    absolute length here relative c = .ok (target, after) ↔
      (Leads here relative target ∧ target < length) ∧ c = after := by
  unfold absolute
  split
  next outside =>
    have failed : (fail (.badBranchTarget (here + relative)) : CodeReader Nat) c ≠ .ok (target, after) := nofun
    simp only [failed, false_iff, Leads]
    omega
  next inside =>
    rw [pure_eq_ok, Leads]
    exact and_congr_left fun _ => by omega

theorem readsAs_target {r : CodeReader α} {encode : α → List UInt8} (reads : ReadsAs r encode Eq)
    (distance : α → Int) : ReadsAs (r >>= fun a => absolute length here (distance a)) encode
      fun a target => Leads here (distance a) target ∧ target < length := by
  intro offset input target next rest
  rw [IsLocal.bind_eq_ok]
  constructor
  · rintro ⟨a, ⟨_, _⟩, ok, ok'⟩
    obtain ⟨leads, same⟩ := absolute_eq_ok.1 ok'
    cases same
    obtain ⟨_, rfl, taken, place⟩ := reads.1 ok
    exact ⟨_, leads, taken, place⟩
  · rintro ⟨a, leads, taken, place⟩
    exact ⟨a, ⟨_, _⟩, reads.2 ⟨a, rfl, taken, place⟩, absolute_eq_ok.2 ⟨leads, rfl⟩⟩

theorem readsAs_shortTarget : ReadsAs (shortTarget length here) encodeInt16
    fun v target => Leads here v.toInt target ∧ target < length :=
  readsAs_target readsAs_int16 Int16.toInt

theorem readsAs_wideTarget : ReadsAs (wideTarget length here) encodeInt32
    fun v target => Leads here v.toInt target ∧ target < length :=
  readsAs_target readsAs_int32 Int32.toInt

theorem readsAs_lookupCase : ReadsAs (Instruction.lookupCase length here)
    (fun d : Int32 × Int32 => encodeInt32 d.1 ++ encodeInt32 d.2) fun d t =>
      (d.1 = t.1 ∧ Leads here d.2.toInt t.2) ∧ t.2 < length := by
  have reads := readsAs_int32.bind fun key =>
    (@readsAs_wideTarget length here).map fun target => (key, target)
  intro offset input t next rest
  refine reads.trans ⟨?_, ?_⟩
  · rintro ⟨d, ⟨_, rfl, target, leads, rfl⟩, taken, place⟩
    exact ⟨d, ⟨⟨rfl, leads.1⟩, leads.2⟩, taken, place⟩
  · rintro ⟨d, ⟨⟨same, leads⟩, inside⟩, taken, place⟩
    exact ⟨d, ⟨_, same, _, ⟨leads, inside⟩, rfl⟩, taken, place⟩

theorem align_eq_ok : align ⟨offset, input⟩ = .ok ((), ⟨next, rest⟩) ↔
    ∃ padding, Pads offset padding ∧ input = padding ++ rest ∧ next = offset + padding.length := by
  have skips := readsAs_uint8.times ((4 - offset % 4) % 4)
  change (readTimes uint8 ((4 - offset % 4) % 4) >>= fun _ => pure ()) ⟨offset, input⟩ = _ ↔ _
  rw [IsLocal.bind_eq_ok]
  constructor
  · rintro ⟨_, ⟨_, _⟩, ok, same⟩
    cases same
    obtain ⟨padding, ⟨size, _⟩, rfl, rfl⟩ := skips.1 ok
    exact ⟨padding, ⟨by omega, by omega⟩, by simp, by simp⟩
  · rintro ⟨padding, ⟨short, aligned⟩, rfl, rfl⟩
    refine ⟨padding, ⟨_, rest⟩, skips.2 ⟨padding, ⟨by omega, ?_⟩, by simp, by simp⟩, rfl⟩
    exact List.forall₂_eq_eq_eq ▸ rfl

theorem require_eq_ok {count : Nat} {c after : CodeCursor} :
    require length count c = .ok ((), after) ↔ c.offset + count ≤ length ∧ c = after := by
  change (if c.offset + count > length then fail .truncated else pure () : CodeReader Unit) c = _ ↔ _
  split
  next more =>
    have failed : (fail .truncated : CodeReader Unit) c ≠ .ok ((), after) := nofun
    simp only [failed, false_iff]
    omega
  next enough =>
    rw [pure_eq_ok]
    simp only [true_and]
    exact ⟨fun same => ⟨by omega, same⟩, And.right⟩

end StackMaps.CodeReader
