import StackMaps.Proofs.ClassFile.Codec

/-! What is written for a pool that was read. The constants are those that were read, but the count
is that of their indices, and the declared one may be another: none at all is less than one, and a
wide constant may run past it. -/

namespace StackMaps.Pool

variable {pool q : Pool} {count fuel : Nat} {input rest : List UInt8}

theorem readOnto_ends (ok : readOnto count fuel pool input = .ok (q, rest))
    (enough : count ≤ pool.entries.next + fuel) : count ≤ q.entries.next ∧
      (q = pool ∨
        ∃ before c, pool.Grows before ∧ q = before.push c ∧ before.entries.next < count) := by
  induction fuel generalizing pool input with
  | zero =>
    obtain ⟨rfl, rfl⟩ := Decoder.pure_eq_ok.1 ok
    exact ⟨enough, .inl rfl⟩
  | succ fuel ih =>
    rw [readOnto] at ok
    split at ok
    next more =>
      obtain ⟨c, middle, _, later⟩ := Decoder.bind_eq_ok.1 ok
      have wide := c.width_pos
      obtain ⟨reached, rfl | ⟨before, c', grows, rfl, below⟩⟩ :=
        ih later (by rw [next_push]; omega)
      · exact ⟨reached, .inr ⟨pool, c, .refl pool, rfl, more⟩⟩
      · exact ⟨reached, .inr ⟨before, c', (Grows.push pool c).trans grows, rfl, below⟩⟩
    next reached =>
      obtain ⟨rfl, rfl⟩ := Decoder.pure_eq_ok.1 ok
      exact ⟨Nat.le_of_not_lt reached, .inl rfl⟩

theorem get?_last {before : Pool} {c : Constant} (grows : empty.Grows before) {i : ConstantIndex}
    (last : before.entries.next = i.toNat) : (before.push c).get? i = some c := by
  obtain ⟨cs, rfl⟩ := grows
  change (ofList cs).entries.next = _ at last
  change ((ofList cs).push c).get? i = _
  rw [next_ofList] at last
  rw [← ofList_concat, get?_ofList, placed_append, ← last]
  exact List.mem_append_right _ (List.mem_singleton.2 rfl)

/-- The indices end at the declared count if there is one and no wide constant starts right before
it, and one later otherwise. -/
theorem next_of_readOnto {declared : Nat} (small : declared < 65536)
    (ok : readOnto declared declared empty input = .ok (pool, rest)) :
    (pool.entries.next = declared ↔ 0 < declared ∧
      ∀ c, pool.get? (UInt16.ofNat (declared - 1)) = some c → width c = 1) ∧
    (pool.entries.next ≠ declared → pool.entries.next = declared + 1) := by
  obtain ⟨most, cs, same, _⟩ := readOnto_eq_ok ok (Nat.le_add_left 1 declared)
  obtain ⟨least, last⟩ := readOnto_ends ok (Nat.le_add_left declared 1)
  have index : (UInt16.ofNat (declared - 1)).toNat = declared - 1 :=
    UInt16.toNat_ofNat_of_lt' (by simp only [UInt16.size]; omega)
  refine ⟨⟨fun ends => ?_, fun ⟨positive, narrow⟩ => ?_⟩, by omega⟩
  · have next := next_ofList cs
    rw [ofList, ← same, ends] at next
    refine ⟨by omega, fun c found => ?_⟩
    rw [same, ← ofList, get?_ofList, index] at found
    have inside := le_of_mem_placed found
    have wide := c.width_pos
    omega
  · by_contra other
    obtain rfl | ⟨before, c, grows, rfl, below⟩ := last
    · have start : empty.entries.next = 1 := rfl
      omega
    · have wide := c.width_le
      rw [next_push] at least most other
      have one := narrow c (get?_last grows (by omega))
      omega

/-- What is written for a pool is what it was read from, if the declared count is that of its
indices. Otherwise it is the same with a count that is greater by one. -/
theorem encode_of_decoder (read : decoder input = .ok (pool, rest)) :
    ∃ declared body, declared < 65536 ∧ input = bigEndian 2 declared ++ body ++ rest ∧
      (pool.encode = bigEndian 2 declared ++ body ↔ 0 < declared ∧
        ∀ c, pool.get? (UInt16.ofNat (declared - 1)) = some c → width c = 1) ∧
      (pool.encode ≠ bigEndian 2 declared ++ body →
        pool.encode = bigEndian 2 (declared + 1) ++ body) := by
  rw [decoder, Decoder.bind_eq_ok] at read
  obtain ⟨declared, middle, first, ok⟩ := read
  obtain ⟨small, rfl⟩ := (Decoder.number_exact 2 _ _ _).1 first
  obtain ⟨ends, later⟩ := next_of_readOnto small ok
  obtain ⟨most, cs, same, _, rfl⟩ := readOnto_eq_ok ok (Nat.le_add_left 1 declared)
  have constants : pool.entries.toList = cs := by
    rw [same]
    exact (holds_ofList cs).toList
  have counts : pool.encode = bigEndian 2 declared ++ cs.flatMap Constant.encode ↔
      pool.entries.next = declared := by
    rw [encode, constants, List.append_left_inj]
    refine ⟨fun digits => ?_, fun next => by rw [next]⟩
    have low : pool.entries.next % 65536 = declared % 65536 := mod_eq_of_bigEndian_eq digits
    omega
  refine ⟨declared, cs.flatMap Constant.encode, small, by simp, counts.trans ends, fun other => ?_⟩
  rw [encode, constants, later fun next => other (counts.2 next)]

/-- One index is declared and a long is read there, which has two. -/
theorem encode_of_decoder_overrun :
    let overrun := ofList [.long 7]
    decoder [0, 2, 5, 0, 0, 0, 0, 0, 0, 0, 7] = .ok (overrun, []) ∧
    overrun.encode = [0, 3, 5, 0, 0, 0, 0, 0, 0, 0, 7] ∧
    ∃ declared body, [0, 2, 5, 0, 0, 0, 0, 0, 0, 0, 7] = bigEndian 2 declared ++ body ++ [] ∧
      overrun.encode = bigEndian 2 (declared + 1) ++ body := by
  have long : Constant.decoder 1 [5, 0, 0, 0, 0, 0, 0, 0, 7] = .ok (.long 7, []) := by rfl
  have read : decoder [0, 2, 5, 0, 0, 0, 0, 0, 0, 0, 7] = .ok (ofList [.long 7], []) :=
    Decoder.bind_eq_ok.2 ⟨2, _, rfl, Decoder.bind_eq_ok.2 ⟨.long 7, [], long, rfl⟩⟩
  have written : (ofList [.long 7]).encode = [0, 3, 5, 0, 0, 0, 0, 0, 0, 0, 7] := by decide +kernel
  obtain ⟨declared, body, _, whole, _, other⟩ := encode_of_decoder read
  refine ⟨read, written, declared, body, whole, other fun same => ?_⟩
  rw [List.append_nil, ← same, written] at whole
  exact absurd whole (by decide)

end StackMaps.Pool
