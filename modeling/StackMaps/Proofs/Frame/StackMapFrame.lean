import StackMaps.ClassFile.Attribute
import StackMaps.Proofs.Bytes

/-! A stack map table that is written is read again. An entry with a small delta is also read from a
longer form, which is never written. -/

namespace StackMaps

namespace StoredType

theorem reads (t : StoredType) : Reads decoder t.encode t := by
  cases t with
  | object index => exact .cons ((Reads.uint16 index).map)
  | uninitialized offset => exact .cons ((Reads.uint16 offset).map)
  | _ => exact .cons (.pure _)

theorem decoder_exact : Decoder.Exact decoder encode fun _ => True := by
  intro input t rest
  refine ⟨fun ok => ?_, fun ⟨_, written⟩ => written ▸ reads t rest⟩
  obtain ⟨tag, middle, read, ok⟩ := Decoder.bind_eq_ok.1 ok
  rw [Decoder.uint8_eq_ok] at read
  split at ok
  case h_10 => cases ok
  all_goals
    simp only [Decoder.bind_eq_ok, Decoder.pure_eq_ok, Decoder.uint16_exact _ _ _, true_and] at ok
  case h_8 | h_9 =>
    obtain ⟨_, _, rfl, rfl, rfl⟩ := ok
    exact ⟨trivial, read⟩
  all_goals
    obtain ⟨rfl, rfl⟩ := ok
    exact ⟨trivial, read⟩

end StoredType

namespace StackMapFrame

/-- The frame has an encoding, and its lists are no longer than their length can say. -/
def Fits : StackMapFrame → Prop
  | same _ | sameLocals _ _ => True
  | chop _ count => 0 < count ∧ count < 4
  | append _ locals => 0 < locals.length ∧ locals.length < 4
  | full _ locals stack => locals.length < 65536 ∧ stack.length < 65536

theorem Fits.fault?_eq_none {f : StackMapFrame} (fits : f.Fits) : f.fault? = none := by
  cases f with
  | same | sameLocals | full => rfl
  | chop | append => exact if_pos fits

def encodeApart : StackMapFrame → List UInt8
  | same delta => 251 :: encodeUInt16 delta
  | sameLocals delta stack => 247 :: encodeUInt16 delta ++ stack.encode
  | f => f.encode

theorem encode_cases (f : StackMapFrame) : f.encode = f.encodeApart ∨
    (∃ delta, f = same delta ∧ delta < 64 ∧ f.encode = [delta.toUInt8]) ∨
    ∃ delta t, f = sameLocals delta t ∧ delta < 64 ∧
      f.encode = (64 + delta.toUInt8) :: t.encode := by
  cases f with
  | same delta =>
    by_cases small : delta < 64
    · exact .inr (.inl ⟨delta, rfl, small, if_pos small⟩)
    · exact .inl (if_neg small)
  | sameLocals delta t =>
    by_cases small : delta < 64
    · refine .inr (.inr ⟨delta, t, rfl, small, ?_⟩)
      rw [encode, if_pos small, List.singleton_append]
    · refine .inl ?_
      rw [encode, if_neg small, encodeApart]
  | chop | append | full => exact .inl rfl

theorem outruns_encodeApart (f : StackMapFrame) (rest : List UInt8) :
    Decoder.Outruns (f.encodeApart ++ rest) (f.encode ++ rest) := by
  obtain same | ⟨delta, rfl, _, short⟩ | ⟨delta, t, rfl, _, short⟩ := f.encode_cases
  · exact .inl (by rw [same])
  · exact .inr (by rw [short]; simp [encodeApart])
  · exact .inr (by rw [short]; simp [encodeApart])

theorem toNat_toUInt8 {n : UInt16} (small : n < 64) : n.toUInt8.toNat = n.toNat := by
  have less : n.toNat < 64 := small
  rw [UInt16.toNat_toUInt8]
  omega

theorem toNat_tag {n : UInt16} (small : n < 64) : (64 + n.toUInt8).toNat = 64 + n.toNat := by
  have less : n.toNat < 64 := small
  rw [UInt8.toNat_add, toNat_toUInt8 small]
  simp
  omega

def withDelta (tag : UInt8) (delta : UInt16) : Decoder StackMapFrame := do
  if tag = 247 then return sameLocals delta (← StoredType.decoder)
  else if tag < 251 then return chop delta (251 - tag)
  else if tag = 251 then return same delta
  else if tag < 255 then
    return append delta (← Decoder.times StoredType.decoder (tag.toNat - 251))
  else return full delta (← Decoder.list StoredType.decoder) (← Decoder.list StoredType.decoder)

theorem reads_delta {tag : UInt8} (own : 247 ≤ tag) {delta : UInt16} {bytes : List UInt8}
    {f : StackMapFrame} (next : Reads (withDelta tag delta) bytes f) :
    Reads decoder (tag :: encodeUInt16 delta ++ bytes) f := by
  have large : 247 ≤ tag.toNat := own
  have plain : ∀ k : UInt8, k.toNat ≤ 247 → ¬ tag < k := fun k less low => by
    have : tag.toNat < k.toNat := low
    omega
  refine .cons ?_
  rw [if_neg (plain 64 (by decide)), if_neg (plain 128 (by decide)), if_neg (plain 247 (by decide))]
  exact (Reads.uint16 delta).bind next

theorem reads_apart {f : StackMapFrame} (fits : f.Fits) : Reads decoder f.encodeApart f := by
  cases f with
  | same delta =>
    rw [← List.append_nil (encodeApart _)]
    exact reads_delta (by decide) (.pure _)
  | sameLocals delta t =>
    refine reads_delta (by decide) ?_
    rw [withDelta, if_pos rfl]
    exact t.reads.map
  | chop delta count =>
    have cases : count = 1 ∨ count = 2 ∨ count = 3 := by
      obtain ⟨some, few⟩ := fits
      have some : 0 < count.toNat := some
      have few : count.toNat < 4 := few
      simp only [← UInt8.toNat_inj]
      simp
      omega
    rw [← List.append_nil (encodeApart _)]
    obtain rfl | rfl | rfl := cases
    all_goals exact reads_delta (by decide) (.pure _)
  | append delta locals =>
    obtain ⟨some, few⟩ := fits
    have value : (251 + UInt8.ofNat locals.length).toNat = 251 + locals.length := by
      rw [UInt8.toNat_add, UInt8.toNat_ofNat']
      simp
      omega
    have tag : ∀ k : UInt8, k.toNat ≤ 251 → ¬ 251 + UInt8.ofNat locals.length < k ∧
        251 + UInt8.ofNat locals.length ≠ k := by
      intro k less
      rw [UInt8.lt_iff_toNat_lt, ne_eq, ← UInt8.toNat_inj, value]
      omega
    have last : 251 + UInt8.ofNat locals.length < 255 := by
      rw [UInt8.lt_iff_toNat_lt, value]
      simp
      omega
    refine reads_delta ?_ ?_
    · rw [UInt8.le_iff_toNat_le, value]
      simp
      omega
    · rw [withDelta, if_neg (tag 247 (by decide)).2, if_neg (tag 251 (by decide)).1,
        if_neg (tag 251 (by decide)).2, if_pos last, value, Nat.add_sub_cancel_left]
      exact (Reads.times fun t _ => t.reads).map
  | full delta locals stack =>
    obtain ⟨few, low⟩ := fits
    change Reads decoder (full delta locals stack).encode _
    rw [encode, List.append_assoc]
    refine reads_delta (by decide) ?_
    have both := (Reads.list few fun t _ => StoredType.reads t).bind
      (f := fun locals => full delta locals <$> Decoder.list StoredType.decoder)
      ((Reads.list low fun t _ => StoredType.reads t).map)
    exact both

theorem reads {f : StackMapFrame} (fits : f.Fits) : Reads decoder f.encode f := by
  obtain same | ⟨delta, rfl, small, short⟩ | ⟨delta, t, rfl, small, short⟩ := f.encode_cases
  · rw [same]
    exact reads_apart fits
  · have tag : delta.toUInt8 < 64 := by
      rw [UInt8.lt_iff_toNat_lt, toNat_toUInt8 small]
      exact small
    have back : delta.toUInt8.toUInt16 = delta :=
      UInt16.toNat_inj.1 (by rw [UInt8.toNat_toUInt16, toNat_toUInt8 small])
    rw [short]
    refine .cons ?_
    rw [if_pos tag, back]
    exact .pure _
  · have less : delta.toNat < 64 := small
    have tag : ¬ 64 + delta.toUInt8 < 64 := by
      rw [UInt8.lt_iff_toNat_lt, toNat_tag small]
      simp
    have tag' : 64 + delta.toUInt8 < 128 := by
      rw [UInt8.lt_iff_toNat_lt, toNat_tag small]
      simp
      omega
    have back : (64 + delta.toUInt8).toUInt16 - 64 = delta := by
      refine UInt16.toNat_inj.1 ?_
      rw [UInt16.toNat_sub, UInt8.toNat_toUInt16, toNat_tag small]
      simp
      omega
    rw [short]
    refine .cons ?_
    rw [if_neg tag, if_pos tag', back]
    exact t.reads.map

theorem delta_of_tag {tag : UInt8} (large : ¬ tag < 64) (small : tag < 128) :
    tag.toUInt16 - 64 < 64 ∧ 64 + (tag.toUInt16 - 64).toUInt8 = tag := by
  have large : 64 ≤ tag.toNat := Nat.le_of_not_lt large
  have small : tag.toNat < 128 := small
  have delta : (tag.toUInt16 - 64).toNat = tag.toNat - 64 := by
    rw [UInt16.toNat_sub, UInt8.toNat_toUInt16]
    simp
    omega
  have less : tag.toUInt16 - 64 < 64 := by
    rw [UInt16.lt_iff_toNat_lt, delta]
    simp
    omega
  refine ⟨less, UInt8.toNat_inj.1 ?_⟩
  rw [toNat_tag less, delta]
  omega

theorem chopped_of_tag {tag : UInt8} (least : 247 < tag) (most : tag < 251) :
    (0 < 251 - tag ∧ 251 - tag < 4) ∧ 251 - (251 - tag) = tag := by
  have least : 247 < tag.toNat := least
  have less : tag.toNat < 251 := most
  have count : (251 - tag).toNat = 251 - tag.toNat :=
    UInt8.toNat_sub_of_le _ _ (UInt8.le_of_lt most)
  have few : 251 - tag ≤ 251 := by
    rw [UInt8.le_iff_toNat_le, count]
    simp
  simp only [UInt8.lt_iff_toNat_lt, ← UInt8.toNat_inj, UInt8.toNat_sub_of_le _ _ few, count]
  simp
  omega

theorem added_of_tag {tag : UInt8} (least : 251 < tag) :
    251 + UInt8.ofNat (tag.toNat - 251) = tag := by
  have least : 251 < tag.toNat := least
  have most := tag.toNat_lt
  rw [← UInt8.toNat_inj, UInt8.toNat_add, UInt8.toNat_ofNat']
  simp
  omega

theorem written_of_withDelta {tag : UInt8} {delta : UInt16} {input rest : List UInt8} {f : StackMapFrame}
    (own : 247 ≤ tag.toNat) (ok : withDelta tag delta input = .ok (f, rest)) :
    f.Fits ∧ (tag :: encodeUInt16 delta ++ input = f.encode ++ rest ∨
      tag :: encodeUInt16 delta ++ input = f.encodeApart ++ rest) := by
  unfold withDelta at ok
  split at ok
  next one =>
    simp only [Decoder.bind_eq_ok, Decoder.pure_eq_ok, StoredType.decoder_exact _ _ _,
      true_and] at ok
    obtain ⟨t, _, rfl, rfl, rfl⟩ := ok
    exact ⟨trivial, .inr (by rw [one, encodeApart]; simp)⟩
  next many =>
  have least : 247 < tag.toNat :=
    Nat.lt_of_le_of_ne own fun same => many (UInt8.toNat_inj.1 same.symm)
  split at ok
  next low =>
    obtain ⟨rfl, rfl⟩ := Decoder.pure_eq_ok.1 ok
    obtain ⟨fits, back⟩ := chopped_of_tag least low
    exact ⟨fits, .inl (by rw [encode, back])⟩
  next high =>
  split at ok
  next none =>
    obtain ⟨rfl, rfl⟩ := Decoder.pure_eq_ok.1 ok
    exact ⟨trivial, .inr (by rw [none, encodeApart])⟩
  next other =>
  have high : 251 ≤ tag.toNat := Nat.le_of_not_lt high
  have least : 251 < tag.toNat :=
    Nat.lt_of_le_of_ne high fun same => other (UInt8.toNat_inj.1 same.symm)
  split at ok
  next most =>
    have most : tag.toNat < 255 := most
    simp only [Decoder.bind_eq_ok, Decoder.pure_eq_ok,
      Decoder.times_exact StoredType.decoder_exact _ _ _ _] at ok
    obtain ⟨locals, _, ⟨⟨size, _⟩, rfl⟩, rfl, rfl⟩ := ok
    have fits : 0 < locals.length ∧ locals.length < 4 := by omega
    exact ⟨fits, .inl (by rw [encode, size, added_of_tag least]; simp)⟩
  next last =>
    have last : 255 ≤ tag.toNat := Nat.le_of_not_lt last
    have most := tag.toNat_lt
    have full : tag = 255 := UInt8.toNat_inj.1 (by simp; omega)
    simp only [Decoder.bind_eq_ok, Decoder.pure_eq_ok,
      Decoder.list_exact StoredType.decoder_exact _ _ _] at ok
    obtain ⟨locals, _, ⟨⟨few, _⟩, rfl⟩, stack, _, ⟨⟨low, _⟩, rfl⟩, rfl, rfl⟩ := ok
    exact ⟨⟨few, low⟩, .inl (by rw [full, encode]; simp)⟩

theorem written_of_decoder {input rest : List UInt8} {f : StackMapFrame}
    (ok : decoder input = .ok (f, rest)) :
    f.Fits ∧ (input = f.encode ++ rest ∨ input = f.encodeApart ++ rest) := by
  rw [decoder, Decoder.bind_eq_ok] at ok
  obtain ⟨tag, middle, read, ok⟩ := ok
  obtain rfl := Decoder.uint8_eq_ok.1 read
  split at ok
  next small =>
    obtain ⟨rfl, rfl⟩ := Decoder.pure_eq_ok.1 ok
    have small : tag.toUInt16 < 64 := by
      rw [UInt16.lt_iff_toNat_lt, UInt8.toNat_toUInt16]
      exact small
    refine ⟨trivial, .inl ?_⟩
    rw [encode, if_pos small, UInt8.toUInt8_toUInt16, List.singleton_append]
  next large =>
  split at ok
  next small =>
    simp only [Decoder.bind_eq_ok, Decoder.pure_eq_ok, StoredType.decoder_exact _ _ _,
      true_and] at ok
    obtain ⟨t, _, rfl, rfl, rfl⟩ := ok
    obtain ⟨less, back⟩ := delta_of_tag large small
    refine ⟨trivial, .inl ?_⟩
    rw [encode, if_pos less, back]
    rfl
  next large =>
  split at ok
  next => cases ok
  next own =>
    obtain ⟨delta, _, bytes, ok'⟩ := Decoder.bind_eq_ok.1 ok
    obtain ⟨_, rfl⟩ := (Decoder.uint16_exact _ _ _).1 bytes
    have own : 247 ≤ tag.toNat := Nat.le_of_not_lt own
    exact written_of_withDelta own ok'

theorem decoder_eq_ok {input rest : List UInt8} {f : StackMapFrame} :
    decoder input = .ok (f, rest) ↔
      f.Fits ∧ (input = f.encode ++ rest ∨ input = f.encodeApart ++ rest) := by
  refine ⟨written_of_decoder, ?_⟩
  rintro ⟨fits, rfl | rfl⟩
  · exact reads fits rest
  · exact reads_apart fits rest

theorem decoder_shortens : Decoder.Shortens decoder encode Fits := by
  intro input f rest ok
  obtain ⟨fits, rfl | rfl⟩ := decoder_eq_ok.1 ok
  · exact ⟨fits, .inl rfl⟩
  · exact ⟨fits, f.outruns_encodeApart rest⟩

end StackMapFrame

theorem StackMapTable.ofBody_encode {table : StackMapTable} (few : table.length < 65536)
    (fits : ∀ f ∈ table, f.Fits) : StackMapTable.ofBody table.encode = .ok table := by
  have reads : Reads StackMapTable.decoder table.encode table :=
    .list few fun f member => StackMapFrame.reads (fits f member)
  have whole := reads []
  rw [List.append_nil] at whole
  rw [ofBody, Attribute.decodeBody, whole]

theorem StackMapTable.written_of_ofBody {table : StackMapTable} {body : List UInt8}
    (ok : StackMapTable.ofBody body = .ok table) :
    (table.length < 65536 ∧ ∀ f ∈ table, f.Fits) ∧ Decoder.Outruns body table.encode := by
  rw [ofBody, Attribute.decodeBody] at ok
  split at ok
  next => cases ok
  next read =>
    cases ok
    have shorter := StackMapFrame.decoder_shortens.list read
    rwa [List.append_nil] at shorter
  next => cases ok

end StackMaps
