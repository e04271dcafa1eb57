import StackMaps.ClassFile.Basic
import StackMaps.Proofs.ClassFile.Entries

/-! What is written for a class file is read again, and what is read was written for it, up to the
flags that mean nothing. -/

namespace StackMaps

namespace Pool

/-- Every text fits in 16 bits, and so does the declared count. -/
structure Fits (pool : Pool) : Prop where
  constants : ∃ cs, pool = ofList cs ∧ ∀ c ∈ cs, c.Fits
  numbered : pool.entries.next ≤ 65535

variable {pool q : Pool} {count fuel : Nat} {input rest : List UInt8}

theorem Built.fits_iff (built : pool.Built) : pool.Fits ↔
    (∀ k ∈ pool.entries.toList, k.Fits) ∧ pool.entries.next ≤ 65535 := by
  constructor
  · rintro ⟨⟨cs, rfl, each⟩, numbered⟩
    rw [(holds_ofList cs).toList]
    exact ⟨each, numbered⟩
  · obtain ⟨cs, rfl⟩ := built.grown
    rintro ⟨each, numbered⟩
    rw [(holds_ofList cs).toList] at each
    exact ⟨⟨cs, rfl, each⟩, numbered⟩

theorem next_push (pool : Pool) (c : Constant) :
    (pool.push c).entries.next = pool.entries.next + width c := rfl

/-- Constants are read until the declared count is reached, and only a wide one gets past it. -/
theorem readOnto_eq_ok (ok : readOnto count fuel pool input = .ok (q, rest))
    (below : pool.entries.next ≤ count + 1) : q.entries.next ≤ count + 1 ∧ ∃ cs : List Constant,
      q = cs.foldl push pool ∧ (∀ c ∈ cs, c.Fits) ∧ input = cs.flatMap Constant.encode ++ rest := by
  induction fuel generalizing pool input with
  | zero =>
    obtain ⟨rfl, rfl⟩ := Decoder.pure_eq_ok.1 ok
    exact ⟨below, [], by simp⟩
  | succ fuel ih =>
    rw [readOnto] at ok
    split at ok
    next more =>
      rw [Decoder.bind_eq_ok] at ok
      obtain ⟨c, middle, first, later⟩ := ok
      obtain ⟨fits, rfl⟩ := (Constant.decoder_exact _ _ _ _).1 first
      have wide := c.width_le
      obtain ⟨least, cs, rfl, all, rfl⟩ := ih later (by rw [next_push]; omega)
      exact ⟨least, c :: cs, rfl, List.forall_mem_cons.2 ⟨fits, all⟩, by simp⟩
    next =>
      obtain ⟨rfl, rfl⟩ := Decoder.pure_eq_ok.1 ok
      exact ⟨below, [], by simp⟩

theorem reads_readOnto {cs : List Constant} (enough : count ≤ pool.entries.next + fuel)
    (last : (cs.foldl push pool).entries.next = count) (fits : ∀ c ∈ cs, c.Fits) :
    Reads (readOnto count fuel pool) (cs.flatMap Constant.encode) (cs.foldl push pool) := by
  induction cs generalizing pool fuel with
  | nil =>
    have done : readOnto count fuel pool = pure pool := by
      cases fuel with
      | zero => rfl
      | succ fuel => rw [readOnto, if_neg (by simp only [List.foldl_nil] at last; omega)]
    rw [done]
    exact .pure pool
  | cons c cs ih =>
    obtain ⟨first, fits⟩ := List.forall_mem_cons.1 fits
    have wide := c.width_pos
    have more : (pool.push c).entries.next ≤ count := last ▸ Grows.next_le ⟨cs, rfl⟩
    rw [next_push] at more
    cases fuel with
    | zero => omega
    | succ fuel =>
      rw [readOnto, if_pos (by omega)]
      exact (Constant.reads _ first).bind (ih (by rw [next_push]; omega) last fits)

theorem reads (fits : pool.Fits) : Reads decoder pool.encode pool := by
  obtain ⟨cs, rfl, each⟩ := fits.constants
  have count : (ofList cs).entries.next < 256 ^ 2 := Nat.lt_succ_of_le fits.numbered
  rw [encode, (holds_ofList cs).toList]
  exact (Reads.number_of_lt count).bind (reads_readOnto (by omega) rfl each)

theorem decoder_eq_ok (ok : decoder input = .ok (pool, rest)) : ∃ declared, declared < 65536 ∧
    pool.entries.next ≤ declared + 1 ∧ (∃ cs, pool = ofList cs ∧ ∀ c ∈ cs, c.Fits) ∧
      input = bigEndian 2 declared ++ pool.entries.toList.flatMap Constant.encode ++ rest := by
  rw [decoder, Decoder.bind_eq_ok] at ok
  obtain ⟨declared, middle, first, later⟩ := ok
  obtain ⟨small, rfl⟩ := (Decoder.number_exact 2 _ _ _).1 first
  obtain ⟨least, cs, rfl, each, rfl⟩ := readOnto_eq_ok later (Nat.le_add_left 1 declared)
  refine ⟨declared, small, least, ⟨cs, rfl, each⟩, ?_⟩
  rw [← ofList, (holds_ofList cs).toList, List.append_assoc]

end Pool

theorem Version.decoder_exact : Decoder.Exact decoder encode fun _ => True := by
  intro input v rest
  simp only [decoder, Decoder.bind_eq_ok, Decoder.pure_eq_ok, Decoder.uint16_exact _ _ _, true_and]
  constructor
  · rintro ⟨minor, _, rfl, major, _, rfl, rfl, rfl⟩
    simp [encode]
  · rintro rfl
    exact ⟨v.minor, _, by rw [encode, List.append_assoc], v.major, rest, rfl, rfl, rfl⟩

def Attribute.Fits (a : Attribute) : Prop := a.body.length < 2 ^ 32

theorem Attribute.decoder_exact : Decoder.Exact decoder encode Fits := by
  intro input a rest
  simp only [decoder, Decoder.bind_eq_ok, Decoder.pure_eq_ok, Decoder.uint16_exact _ _ _,
    Decoder.body_exact _ _ _, true_and]
  constructor
  · rintro ⟨name, _, rfl, body, _, ⟨small, rfl⟩, rfl, rfl⟩
    exact ⟨small, by simp [encode]⟩
  · rintro ⟨small, rfl⟩
    exact ⟨a.name, _, by rw [encode, List.append_assoc], a.body, rest, ⟨small, rfl⟩, rfl, rfl⟩

def Attribute.AllFit (attributes : List Attribute) : Prop :=
  attributes.length < 65536 ∧ ∀ a ∈ attributes, a.Fits

theorem Attribute.list_exact :
    Decoder.Exact (Decoder.list decoder) (encodeList encode) AllFit :=
  Decoder.list_exact decoder_exact

theorem Decoder.optionalIndex_exact :
    Exact optionalIndex encodeOptionalIndex fun index => index ≠ some 0 := by
  intro input index rest
  simp only [optionalIndex, bind_eq_ok, pure_eq_ok, uint16_exact _ _ _, true_and]
  constructor
  · rintro ⟨word, _, rfl, same, rfl⟩
    split at same
    next zero =>
      subst zero same
      simp [encodeOptionalIndex]
    next other =>
      subst same
      simp [encodeOptionalIndex, other]
  · rintro ⟨used, rfl⟩
    refine ⟨index.getD 0, rest, rfl, ?_, rfl⟩
    cases index with
    | none => rfl
    | some i => simp_all

theorem Handler.decoder_exact : Decoder.Exact decoder encode fun h => h.catchType ≠ some 0 := by
  intro input h rest
  simp only [decoder, Decoder.bind_eq_ok, Decoder.pure_eq_ok, Decoder.uint16_exact _ _ _,
    Decoder.optionalIndex_exact _ _ _, true_and]
  constructor
  · rintro ⟨start, _, rfl, stop, _, rfl, target, _, rfl, catchType, _, ⟨used, rfl⟩, rfl, rfl⟩
    exact ⟨used, by simp [encode]⟩
  · rintro ⟨used, rfl⟩
    exact ⟨h.start, _, by simp only [encode, List.append_assoc], h.stop, _, rfl, h.target, _, rfl,
      h.catchType, rest, ⟨used, rfl⟩, rfl, rfl⟩

structure Code.Fits (c : Code) : Prop where
  bytes : c.bytes.length < 2 ^ 32
  handlers : c.handlers.length < 65536
  catchTypes : ∀ h ∈ c.handlers, h.catchType ≠ some 0
  attributes : Attribute.AllFit c.attributes

theorem Code.decoder_exact : Decoder.Exact decoder encode Fits := by
  intro input c rest
  simp only [decoder, Decoder.bind_eq_ok, Decoder.pure_eq_ok, Decoder.uint16_exact _ _ _,
    Decoder.body_exact _ _ _, Decoder.list_exact Handler.decoder_exact _ _ _,
    Attribute.list_exact _ _ _, true_and]
  constructor
  · rintro ⟨maxStack, _, rfl, maxLocals, _, rfl, bytes, _, ⟨short, rfl⟩, handlers, _,
      ⟨⟨few, used⟩, rfl⟩, attributes, _, ⟨fit, rfl⟩, rfl, rfl⟩
    exact ⟨⟨short, few, used, fit⟩, by simp [encode]⟩
  · rintro ⟨fits, rfl⟩
    exact ⟨c.maxStack, _, by simp only [encode, List.append_assoc], c.maxLocals, _, rfl, c.bytes, _,
      ⟨fits.bytes, rfl⟩, c.handlers, _, ⟨⟨fits.handlers, fits.catchTypes⟩, rfl⟩, c.attributes, rest,
      ⟨fits.attributes, rfl⟩, rfl, rfl⟩

theorem Code.fits_of_encode {code : Code} (short : code.encode.length < 2 ^ 32)
    (handlers : code.handlers.length < 65536) (catchTypes : ∀ h ∈ code.handlers, h.catchType ≠ some 0)
    (attributes : code.attributes.length < 65536) : code.Fits where
  bytes := by
    simp only [encode, encodeBody, List.length_append] at short
    omega
  handlers := handlers
  catchTypes := catchTypes
  attributes := by
    refine ⟨attributes, fun t there => ?_⟩
    obtain ⟨before, after, whole⟩ := List.append_of_mem there
    simp only [encode, encodeList, whole, List.flatMap_append, List.flatMap_cons, Attribute.encode,
      encodeBody, List.length_append] at short
    rw [Attribute.Fits]
    omega

theorem Attribute.decodeBody_eq_ok {α : Type} {d : Decoder α} {encode : α → List UInt8}
    {P : α → Prop} (exact : Decoder.Exact d encode P) {name : String} {body : List UInt8} {a : α} :
    decodeBody name d body = .ok a ↔ P a ∧ body = encode a := by
  have whole := exact body a []
  rw [List.append_nil] at whole
  rw [← whole, decodeBody]
  split <;> simp_all

namespace Member

variable {mask : UInt16}

def narrow (m : Member 0xFFFF) : Member mask :=
  ⟨.ofBits m.flags.bits, m.name, m.descriptor, m.attributes⟩

def widen (m : Member mask) : Member 0xFFFF :=
  ⟨⟨m.flags.bits, UInt16.and_neg_one⟩, m.name, m.descriptor, m.attributes⟩

def encodeAs (m : Member mask) (flags : UInt16) : List UInt8 :=
  encodeUInt16 flags ++ encodeUInt16 m.name ++ encodeUInt16 m.descriptor ++
    encodeList Attribute.encode m.attributes

def Fits (m : Member mask) : Prop := Attribute.AllFit m.attributes

theorem narrow_fit {wide : List (Member 0xFFFF)} (fit : wide.length < 65536 ∧ ∀ m ∈ wide, m.Fits) :
    (wide.map (narrow : _ → Member mask)).length < 65536 ∧
      ∀ m ∈ wide.map (narrow : _ → Member mask), m.Fits := by
  simpa [Fits, narrow] using fit

theorem ofBits_bits (flags : AccessFlags 0xFFFF) : .ofBits flags.bits = flags := by
  rw [AccessFlags.mk.injEq]
  exact flags.known

theorem decoder_exact : Decoder.Exact (decoder : Decoder (Member 0xFFFF)) encode Fits := by
  intro input m rest
  simp only [decoder, AccessFlags.decoder, Decoder.bind_eq_ok, Decoder.map_eq_ok,
    Decoder.pure_eq_ok, Decoder.uint16_exact _ _ _, Attribute.list_exact _ _ _, true_and]
  constructor
  · rintro ⟨_, _, ⟨flags, rfl, rfl⟩, name, _, rfl, descriptor, _, rfl, attributes, _,
      ⟨fit, rfl⟩, rfl, rfl⟩
    have bits : flags &&& 0xFFFF = flags := UInt16.and_neg_one
    exact ⟨fit, by simp [encode, AccessFlags.ofBits, AccessFlags.encode, bits]⟩
  · rintro ⟨fit, rfl⟩
    exact ⟨m.flags, _, ⟨m.flags.bits, by simp only [encode, AccessFlags.encode, List.append_assoc],
      ofBits_bits m.flags⟩, m.name, _, rfl, m.descriptor, _, rfl, m.attributes, rest, ⟨fit, rfl⟩,
      rfl, rfl⟩

theorem encodeList_encode (wide : List (Member 0xFFFF)) : encodeList encode wide =
    encodeList id (List.zipWith encodeAs (wide.map (narrow : _ → Member mask))
      (wide.map (·.flags.bits))) := by
  rw [List.zipWith_map, List.zipWith_self, encodeList, encodeList, List.length_map,
    List.flatMap_map]
  rfl

theorem encodeList_bits (ms : List (Member mask)) : encodeList encode ms =
    encodeList id (List.zipWith encodeAs ms (ms.map (·.flags.bits))) := by
  rw [List.zipWith_map_right, List.zipWith_self, encodeList, encodeList, List.length_map,
    List.flatMap_map]
  rfl

theorem decoder_eq_narrow : (decoder : Decoder (Member mask)) = narrow <$> decoder := by
  have all (flags : UInt16) : flags &&& 0xFFFF = flags := UInt16.and_neg_one
  simp [decoder, AccessFlags.decoder, map_bind, narrow, AccessFlags.ofBits, all]

theorem reads {m : Member mask} (fits : m.Fits) : Reads decoder m.encode m := by
  have wide : Reads decoder m.encode m.widen := decoder_exact.reads (a := m.widen) fits
  have same : m.widen.narrow = m := by
    simp [widen, narrow, AccessFlags.ofBits, m.flags.known]
  have reads : Reads (narrow <$> decoder : Decoder (Member mask)) m.encode m.widen.narrow := wide.map
  rwa [← decoder_eq_narrow, same] at reads

theorem list_eq_ok {ms : List (Member mask)} {input rest : List UInt8} :
    Decoder.list decoder input = .ok (ms, rest) ↔ ∃ wide : List (Member 0xFFFF),
      ((wide.length < 65536 ∧ ∀ m ∈ wide, m.Fits) ∧ input = encodeList encode wide ++ rest) ∧
        wide.map narrow = ms := by
  rw [decoder_eq_narrow, Decoder.list_map, Decoder.map_eq_ok]
  simp only [Decoder.list_exact decoder_exact _ _ _]

end Member

namespace ClassFile

structure Fits (c : ClassFile) : Prop where
  pool : c.pool.Fits
  superclass : c.superclass ≠ some 0
  interfaces : c.interfaces.length < 65536
  fields : c.fields.length < 65536 ∧ ∀ f ∈ c.fields, f.Fits
  methods : c.methods.length < 65536 ∧ ∀ m ∈ c.methods, m.Fits
  attributes : Attribute.AllFit c.attributes

/-- The bytes of a class file with these words for the flags of the class, its fields and its
methods. -/
def encodeAs (c : ClassFile) (flags : UInt16) (fieldFlags methodFlags : List UInt16) : List UInt8 :=
  encodeUInt32 magic ++ c.version.encode ++ c.pool.encode ++ encodeUInt16 flags ++
    encodeUInt16 c.thisClass ++ encodeOptionalIndex c.superclass ++
    encodeList encodeUInt16 c.interfaces ++
    encodeList id (List.zipWith Member.encodeAs c.fields fieldFlags) ++
    encodeList id (List.zipWith Member.encodeAs c.methods methodFlags) ++
    encodeList Attribute.encode c.attributes

theorem encode_eq_encodeAs (c : ClassFile) : c.encode =
    c.encodeAs c.flags.bits (c.fields.map (·.flags.bits)) (c.methods.map (·.flags.bits)) := by
  rw [encode, encodeAs, Member.encodeList_bits, Member.encodeList_bits, AccessFlags.encode]

theorem reads {c : ClassFile} (fits : c.Fits) : Reads decoder c.encode c := by
  have flags : Reads AccessFlags.decoder c.flags.encode c.flags := by
    have word := (Reads.uint16 c.flags.bits).map (f := (AccessFlags.ofBits : _ → ClassFlags))
    have same : .ofBits c.flags.bits = c.flags := AccessFlags.mk.injEq .. ▸ c.flags.known
    rwa [same] at word
  have superclass := Decoder.optionalIndex_exact.reads fits.superclass
  have interfaces := Reads.list fits.interfaces fun i _ => Reads.uint16 i
  have fields := Reads.list fits.fields.1 fun f there => Member.reads (fits.fields.2 f there)
  have methods := Reads.list fits.methods.1 fun m there => Member.reads (fits.methods.2 m there)
  have attributes := Attribute.list_exact.reads fits.attributes
  rw [encode]
  simp only [List.append_assoc]
  refine (Decoder.uint32_exact.reads trivial).bind ?_
  rw [if_neg (by simp)]
  refine (Version.decoder_exact.reads trivial).bind ((Pool.reads fits.pool).bind (flags.bind
    ((Reads.uint16 _).bind (superclass.bind (interfaces.bind (fields.bind (methods.bind ?_)))))))
  exact attributes.map

/-- What a class file was read from: the flags and the declared count of constants may differ from
what is written for it. -/
theorem decoder_eq_ok {c : ClassFile} {input rest : List UInt8}
    (ok : decoder input = .ok (c, rest)) :
    ∃ (declared : Nat) (flags : UInt16) (fields methods : List (Member 0xFFFF)), declared < 65536 ∧ 
      c.pool.entries.next ≤ declared + 1 ∧ (c.pool.Built ∧ (c.pool.entries.next ≤ 65535 → c.Fits)) ∧
      c.flags = .ofBits flags ∧ c.fields = fields.map Member.narrow ∧
      c.methods = methods.map Member.narrow ∧
      input = encodeUInt32 magic ++ c.version.encode ++ (bigEndian 2 declared ++
        c.pool.entries.toList.flatMap Constant.encode) ++ encodeUInt16 flags ++
        encodeUInt16 c.thisClass ++ encodeOptionalIndex c.superclass ++
        encodeList encodeUInt16 c.interfaces ++ encodeList Member.encode fields ++
        encodeList Member.encode methods ++ encodeList Attribute.encode c.attributes ++ rest := by
  rw [decoder, Decoder.bind_eq_ok] at ok
  obtain ⟨word, _, first, ok⟩ := ok
  obtain ⟨_, rfl⟩ := (Decoder.uint32_exact _ _ _).1 first
  split at ok
  next other => cases ok
  next same =>
    obtain rfl := Decidable.not_not.1 same
    simp only [Decoder.bind_eq_ok, AccessFlags.decoder, Decoder.map_eq_ok,
      Decoder.pure_eq_ok, Decoder.uint16_exact _ _ _, Version.decoder_exact _ _ _,
      Decoder.optionalIndex_exact _ _ _, Decoder.list_exact Decoder.uint16_exact _ _ _,
      Member.list_eq_ok, Attribute.list_exact _ _ _, true_and] at ok
    obtain ⟨version, _, rfl, pool, _, pool_ok, _, _, ⟨flags, rfl, rfl⟩, this, _, rfl, superclass, _,
      ⟨used, rfl⟩, interfaces, _, ⟨⟨few, _⟩, rfl⟩, _, _, ⟨fields, ⟨fieldsFit, rfl⟩, rfl⟩, _, _,
      ⟨methods, ⟨methodsFit, rfl⟩, rfl⟩, attributes, _, ⟨fit, rfl⟩, rfl, rfl⟩ := ok
    obtain ⟨declared, small, least, constants, rfl⟩ := Pool.decoder_eq_ok pool_ok
    obtain ⟨cs, same, each⟩ := constants
    exact ⟨declared, flags, fields, methods, small, least,
      ⟨⟨⟨cs, same⟩, Nat.le_trans least small⟩, fun numbered => ⟨⟨⟨cs, same, each⟩, numbered⟩, used, few,
        Member.narrow_fit fieldsFit, Member.narrow_fit methodsFit, fit⟩⟩,
      rfl, rfl, rfl, by simp only [List.append_assoc]⟩

theorem parse_eq_ok {c : ClassFile} {bytes : List UInt8} :
    parse bytes = .ok c ↔ decoder bytes = .ok (c, []) := by
  rw [parse]
  split <;> simp_all

theorem numbered_of_declared {declared next : Nat} (small : declared < 65536)
    (least : next ≤ declared + 1) (same : bigEndian 2 declared = bigEndian 2 next) :
    next ≤ 65535 := by
  have counts : declared % 65536 = next % 65536 := mod_eq_of_bigEndian_eq same
  omega

/-- A class file can be read from what is written for it exactly if everything in it fits. -/
theorem parse_encode_iff {c : ClassFile} : parse c.encode = .ok c ↔ c.Fits := by
  rw [parse_eq_ok]
  constructor
  · intro ok
    obtain ⟨declared, flags, fields, methods, small, least, ⟨_, fits⟩, _, _, _, written⟩ :=
      decoder_eq_ok ok
    exact fits (numbered_of_declared small least
      (congrArg (fun bytes => (bytes.drop 8).take 2) written).symm)
  · intro fits
    have ok := reads fits []
    rwa [List.append_nil] at ok

theorem encodeUInt16_count (pool : Pool) :
    encodeUInt16 pool.count = bigEndian 2 pool.entries.next := by
  have high := bigEndian_add_mul 2 0 (pool.entries.next / 65536) (pool.entries.next % 65536)
  rw [Nat.mul_comm, show 256 ^ (2 + 0) = 65536 from rfl, Nat.div_add_mod] at high
  rw [high, encodeUInt16, Pool.count, UInt16.toNat_ofNat']

/-- A class file that fits is read again from what is written for it. Bytes that a class file was
read from are those written for it with other bits in the flags, unless a wide constant runs past
the declared count. -/
theorem parse_encode :
    (∀ c : ClassFile, c.Fits → parse c.encode = .ok c) ∧
    ∀ (bytes : List UInt8) (c : ClassFile), parse bytes = .ok c →
      (bytes.drop 8).take 2 = encodeUInt16 c.pool.count →
      ∃ (flags : UInt16) (fieldFlags methodFlags : List UInt16),
        fieldFlags.length = c.fields.length ∧ methodFlags.length = c.methods.length ∧
        bytes = c.encodeAs flags fieldFlags methodFlags ∧
        c.encode = c.encodeAs (flags &&& 0xF631) (fieldFlags.map (· &&& 0x50DF))
          (methodFlags.map (· &&& 0x1DFF)) := by
  refine ⟨fun c fits => parse_encode_iff.2 fits, fun bytes c ok count => ?_⟩
  obtain ⟨declared, flags, fields, methods, _, _, _, flagged, fields_eq, methods_eq, written⟩ :=
    decoder_eq_ok (parse_eq_ok.1 ok)
  have same : bigEndian 2 declared = bigEndian 2 c.pool.entries.next := by
    rw [← encodeUInt16_count, ← count, written]
    rfl
  refine ⟨flags, fields.map (·.flags.bits), methods.map (·.flags.bits), by simp [fields_eq],
    by simp [methods_eq], ?_, ?_⟩
  · rw [written, same, List.append_nil, Member.encodeList_encode, Member.encodeList_encode,
      ← fields_eq, ← methods_eq]
    rfl
  · rw [encode_eq_encodeAs, flagged, fields_eq, methods_eq]
    simp only [List.map_map]
    rfl

def plain : ClassFile where
  version := ⟨52, 0⟩
  pool := .ofList [.utf8 [0x41], .cls 1, .long 5]
  flags := .ofBits 0xFFFF
  thisClass := 2
  superclass := none
  interfaces := []
  fields := [⟨.ofBits 0xFFFF, 1, 1, []⟩]
  methods := []
  attributes := []

theorem plain_fits : plain.Fits where
  pool := ⟨⟨_, rfl, by simp [Constant.Fits]⟩, by decide⟩
  superclass := by decide
  interfaces := by decide
  fields := ⟨by decide, by simp [plain, Member.Fits, Attribute.AllFit]⟩
  methods := ⟨by decide, by simp [plain]⟩
  attributes := ⟨by decide, by simp [plain]⟩

theorem parse_encode_plain : parse plain.encode = .ok plain ∧
    ∃ (flags : UInt16) (fieldFlags methodFlags : List UInt16),
      fieldFlags.length = plain.fields.length ∧ methodFlags.length = plain.methods.length ∧
      plain.encodeAs 0xFFFF [0xFFFF] [] = plain.encodeAs flags fieldFlags methodFlags ∧
      plain.encode = plain.encodeAs (flags &&& 0xF631) (fieldFlags.map (· &&& 0x50DF))
        (methodFlags.map (· &&& 0x1DFF)) :=
  ⟨parse_encode.1 plain plain_fits, parse_encode.2 _ plain (by rfl) rfl⟩

end ClassFile

end StackMaps
