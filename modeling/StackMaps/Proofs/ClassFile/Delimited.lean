import StackMaps.Proofs.ClassFile.Codec

/-! Where a class file ends. A reader that takes some bytes takes them for the same whatever comes
after, and with fewer of them it finds that they are cut off. It follows that a class file can be
neither shortened nor continued, wherever it is cut. -/

namespace StackMaps

namespace Decoder

variable {α β : Type} {d : Decoder α} {f : α → Decoder β} {input middle used : List UInt8} {a : α}
  {e : FormatError}

/-- With only a part of the bytes, the reader finds them cut off. -/
def Needs (d : Decoder α) (used : List UInt8) : Prop :=
  ∀ ⦃front back⦄, used = front ++ back → back ≠ [] → d front = .error .truncated

/-- What the reader takes tells by itself where it ends. -/
def Delimited (d : Decoder α) : Prop :=
  ∀ ⦃input a rest⦄, d input = .ok (a, rest) → ∃ used, input = used ++ rest ∧ Reads d used a ∧ d.Needs used

theorem bind_of_ok (ok : d input = .ok (a, middle)) : (d >>= f) input = f a middle := by
  change (d input >>= fun p => f p.1 p.2) = _
  rw [ok]
  rfl

theorem bind_of_error (failed : d input = .error e) : (d >>= f) input = .error e := by
  change (d input >>= fun p => f p.1 p.2) = _
  rw [failed]
  rfl

theorem Needs.nil (d : Decoder α) : d.Needs [] := fun _ _ same some =>
  absurd (List.append_eq_nil_iff.1 same.symm).2 some

theorem Needs.bind {used' : List UInt8} (first : d.Needs used) (reads : Reads d used a)
    (next : (f a).Needs used') : (d >>= f).Needs (used ++ used') := by
  intro front back same some
  obtain ⟨more, rfl, later⟩ | ⟨more, here, rfl⟩ := List.append_eq_append_iff.1 same
  · rw [bind_of_ok (reads more)]
    exact next later some
  · by_cases none : more = []
    · -- The cut is right behind what the first reader takes.
      subst none
      rw [List.append_nil] at here
      have ok := reads []
      rw [List.append_nil, here] at ok
      rw [bind_of_ok ok]
      exact next rfl some
    · exact bind_of_error (first here none)

namespace Delimited

theorem pure (a : α) : Delimited (Pure.pure a) := by
  intro input b rest ok
  obtain ⟨rfl, rfl⟩ := pure_eq_ok.1 ok
  exact ⟨[], rfl, .pure a, .nil _⟩

theorem bind (first : d.Delimited) (next : ∀ a, (f a).Delimited) : (d >>= f).Delimited := by
  intro input b rest ok
  obtain ⟨a, middle, first_ok, next_ok⟩ := bind_eq_ok.1 ok
  obtain ⟨used, rfl, reads, needs⟩ := first first_ok
  obtain ⟨used', rfl, reads', needs'⟩ := next a next_ok
  exact ⟨used ++ used', (List.append_assoc ..).symm, reads.bind reads', needs.bind reads needs'⟩

theorem map (delimited : d.Delimited) (g : α → β) : (g <$> d).Delimited := by
  rw [map_eq_pure_bind]
  exact delimited.bind fun _ => .pure _

theorem fail (e : FormatError) : (Decoder.fail e : Decoder α).Delimited := fun _ _ _ ok => nomatch ok

theorem uint8 : Decoder.uint8.Delimited := by
  intro input b rest ok
  obtain rfl := uint8_eq_ok.1 ok
  refine ⟨[b], rfl, .uint8 b, fun front back same some => ?_⟩
  obtain ⟨rfl, _⟩ | ⟨_, none⟩ := List.singleton_eq_append_iff.1 same
  · rfl
  · exact absurd none some

theorem number (width : Nat) : (Decoder.number width).Delimited := by
  induction width with
  | zero => exact .pure 0
  | succ width ih => exact uint8.bind fun _ => ih.bind fun _ => .pure _

theorem uint16 : Decoder.uint16.Delimited := (number 2).map _

theorem uint32 : Decoder.uint32.Delimited := (number 4).map _

theorem uint64 : Decoder.uint64.Delimited := (number 8).map _

theorem bytes (count : Nat) : (Decoder.bytes count).Delimited := by
  intro input bs rest ok
  obtain ⟨rfl, rfl⟩ := bytes_eq_ok.1 ok
  refine ⟨bs, rfl, fun rest => bytes_eq_ok.2 ⟨rfl, rfl⟩, ?_⟩
  rintro front back rfl some
  have positive := List.length_pos_iff.2 some
  rw [Decoder.bytes, if_pos (by rw [List.length_take, List.length_append]; omega)]

theorem body : Decoder.body.Delimited := (number 4).bind bytes

theorem times (delimited : d.Delimited) (count : Nat) : (Decoder.times d count).Delimited := by
  suffices onto : ∀ done, Delimited (readTimesOnto d count done) from onto []
  induction count with
  | zero => exact fun done => .pure _
  | succ count ih => exact fun done => delimited.bind fun x => ih (x :: done)

theorem list (delimited : d.Delimited) : (Decoder.list d).Delimited :=
  (number 2).bind delimited.times

theorem optionalIndex : Decoder.optionalIndex.Delimited := uint16.bind fun _ => .pure _

end Delimited
end Decoder

open Decoder (Delimited)

theorem HandleKind.delimited : HandleKind.decoder.Delimited := by
  refine Delimited.uint8.bind fun code => ?_
  split
  · exact .pure _
  · exact .fail _

theorem Constant.delimited (index : ConstantIndex) : (Constant.decoder index).Delimited := by
  have word (g : UInt16 → Constant) : Delimited (do return g (← Decoder.uint16)) :=
    .bind .uint16 fun _ => .pure _
  have words (g : UInt16 → UInt16 → Constant) :
      Delimited (do return g (← Decoder.uint16) (← Decoder.uint16)) :=
    .bind .uint16 fun _ => .bind .uint16 fun _ => .pure _
  refine .bind .uint8 fun tag => ?_
  split
  case h_1 => exact .bind (.number 2) fun length => .bind (.bytes length) fun _ => .pure _
  case h_2 | h_3 => exact .bind .uint32 fun _ => .pure _
  case h_4 | h_5 => exact .bind .uint64 fun _ => .pure _
  case h_6 | h_7 | h_13 | h_16 | h_17 => exact word _
  case h_8 | h_9 | h_10 | h_11 | h_14 | h_15 => exact words _
  case h_12 => exact .bind HandleKind.delimited fun _ => .bind .uint16 fun _ => .pure _
  case h_18 => exact .fail _

theorem Pool.delimited_readOnto (count fuel : Nat) (pool : Pool) :
    (readOnto count fuel pool).Delimited := by
  induction fuel generalizing pool with
  | zero => exact .pure pool
  | succ fuel ih =>
    rw [readOnto]
    split
    · exact (Constant.delimited _).bind fun c => ih (pool.push c)
    · exact .pure pool

theorem Pool.delimited : Pool.decoder.Delimited :=
  .bind (.number 2) fun count => delimited_readOnto count count empty

theorem Attribute.delimited : Attribute.decoder.Delimited :=
  .bind .uint16 fun _ => .bind .body fun _ => .pure _

theorem AccessFlags.delimited {mask : UInt16} : (AccessFlags.decoder : Decoder (AccessFlags mask)).Delimited :=
  Delimited.uint16.map _

theorem Version.delimited : Version.decoder.Delimited :=
  .bind .uint16 fun _ => .bind .uint16 fun _ => .pure _

theorem Member.delimited {mask : UInt16} : (Member.decoder : Decoder (Member mask)).Delimited :=
  .bind AccessFlags.delimited fun _ => .bind .uint16 fun _ => .bind .uint16 fun _ =>
    .bind Attribute.delimited.list fun _ => .pure _

namespace ClassFile

theorem delimited : decoder.Delimited := by
  refine .bind .uint32 fun word => ?_
  split
  · exact fun _ _ _ ok => nomatch ok
  · refine .bind Version.delimited fun _ => .bind Pool.delimited fun _ =>
      .bind AccessFlags.delimited fun _ => .bind .uint16 fun _ => .bind .optionalIndex fun _ =>
      .bind Delimited.uint16.list fun _ => .bind Member.delimited.list fun _ =>
      .bind Member.delimited.list fun _ => .bind Attribute.delimited.list fun _ => .pure _

/-- A class file that is cut off anywhere is refused as truncated, and one with more bytes behind it is
refused with the number of these. -/
theorem parse_delimited {bytes : List UInt8} {c : ClassFile} (ok : parse bytes = .ok c) :
    (∀ front, front <+: bytes → front ≠ bytes → parse front = .error .truncated) ∧
    ∀ more, more ≠ [] → parse (bytes ++ more) = .error (.trailingBytes more.length) := by
  obtain ⟨used, same, reads, needs⟩ := delimited (parse_eq_ok.1 ok)
  obtain rfl : bytes = used := same.trans (List.append_nil used)
  refine ⟨?_, fun more some => ?_⟩
  · rintro front ⟨back, whole⟩ proper
    have some : back ≠ [] := by
      rintro rfl
      exact proper (whole ▸ (List.append_nil front).symm)
    rw [parse, needs whole.symm some]
  · rw [parse, reads more]
    cases more with
    | nil => exact absurd rfl some
    | cons b more => rfl

theorem parse_delimited_plain : parse plain.encode = .ok plain ∧
    parse plain.encode.dropLast = .error .truncated ∧
    parse (plain.encode.take 4) = .error .truncated ∧
    parse (plain.encode ++ [0xCA, 0xFE]) = .error (.trailingBytes 2) := by
  have ok := parse_encode_iff.2 plain_fits
  obtain ⟨cut, longer⟩ := parse_delimited ok
  refine ⟨ok, cut _ (List.dropLast_prefix _) ?_, cut _ (List.take_prefix ..) ?_,
    longer [0xCA, 0xFE] (by decide)⟩
  · exact fun same => absurd (congrArg List.length same) (by decide)
  · exact fun same => absurd (congrArg List.length same) (by decide)

end ClassFile

end StackMaps
