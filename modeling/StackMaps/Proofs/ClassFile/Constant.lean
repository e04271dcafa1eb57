import StackMaps.ClassFile.Constant
import StackMaps.Proofs.Bytes

/-! The constants of a class file are read from exactly what is written for them. -/

namespace StackMaps

theorem HandleKind.ofCode?_eq_some {code : UInt8} {k : HandleKind} :
    ofCode? code = some k ↔ code = k.code := by
  constructor
  · intro same
    unfold ofCode? at same
    split at same <;> cases same <;> rfl
  · rintro rfl
    cases k <;> rfl

theorem HandleKind.decoder_exact :
    Decoder.Exact decoder (fun k => encodeUInt8 k.code) fun _ => True := by
  intro input k rest
  simp only [decoder, Decoder.bind_eq_ok, Decoder.uint8_eq_ok]
  constructor
  · rintro ⟨code, middle, rfl, ok⟩
    cases same : ofCode? code with
    | none =>
      rw [same] at ok
      cases ok
    | some found =>
      rw [same] at ok
      obtain ⟨rfl, rfl⟩ := Decoder.pure_eq_ok.1 ok
      rw [ofCode?_eq_some.1 same]
      exact ⟨trivial, rfl⟩
  · rintro ⟨_, rfl⟩
    refine ⟨k.code, rest, rfl, ?_⟩
    simp only [ofCode?_eq_some.2 rfl]
    exact Decoder.pure_eq_ok.2 ⟨rfl, rfl⟩

namespace Constant

def Fits : Constant → Prop
  | utf8 bytes => bytes.length < 65536
  | _ => True

instance (c : Constant) : Decidable c.Fits :=
  match c with
  | .utf8 bytes => inferInstanceAs (Decidable (bytes.length < 65536))
  | .integer _ | .float _ | .long _ | .double _ | .cls _ | .string _ | .fieldRef .. | .methodRef ..
  | .nameAndType .. | .methodHandle .. | .methodType _ | .dynamic .. | .invokeDynamic ..
  | .moduleName _ | .packageName _ => isTrue trivial

theorem reads (index : ConstantIndex) {c : Constant} (fits : c.Fits) :
    Reads (decoder index) c.encode c := by
  cases c with
  | utf8 bytes =>
    have text : Reads (Decoder.bytes bytes.length) bytes bytes := fun _ =>
      Decoder.bytes_eq_ok.2 ⟨rfl, rfl⟩
    exact .cons ((Reads.number_of_lt fits).bind text.map)
  | integer value =>
    have word := (Decoder.uint32_exact.reads (a := value.toUInt32) trivial).map
      (f := fun word => integer word.toInt32)
    rw [Int32.toInt32_toUInt32] at word
    exact .cons word
  | long value =>
    have word := (Decoder.uint64_exact.reads (a := value.toUInt64) trivial).map
      (f := fun word => long word.toInt64)
    rw [Int64.toInt64_toUInt64] at word
    exact .cons word
  | float bits => exact .cons (Decoder.uint32_exact.reads trivial).map
  | double bits => exact .cons (Decoder.uint64_exact.reads trivial).map
  | cls i | string i | methodType i | moduleName i | packageName i => exact .cons (Reads.uint16 i).map
  | fieldRef i j | nameAndType i j | dynamic i j | invokeDynamic i j =>
    exact .cons ((Reads.uint16 i).bind (Reads.uint16 j).map)
  | methodRef i j ofInterface =>
    have second := fun b => (Reads.uint16 j).map (f := fun j => methodRef i j b)
    cases ofInterface
    · exact .cons ((Reads.uint16 i).bind (second false))
    · exact .cons ((Reads.uint16 i).bind (second true))
  | methodHandle kind i =>
    exact .cons ((HandleKind.decoder_exact.reads trivial).bind (Reads.uint16 i).map)

theorem decoder_exact (index : ConstantIndex) : Decoder.Exact (decoder index) encode Fits := by
  intro input c rest
  refine ⟨fun ok => ?_, fun ⟨fits, written⟩ => written ▸ reads index fits rest⟩
  obtain ⟨tag, middle, read, ok⟩ := Decoder.bind_eq_ok.1 ok
  rw [Decoder.uint8_eq_ok] at read
  split at ok
  case h_18 => cases ok
  all_goals
    simp only [Decoder.bind_eq_ok, Decoder.pure_eq_ok, Decoder.number_exact 2 _ _ _,
      Decoder.bytes_eq_ok, Decoder.uint16_exact _ _ _, Decoder.uint32_exact _ _ _,
      Decoder.uint64_exact _ _ _, HandleKind.decoder_exact _ _ _, true_and] at ok
  case h_1 =>
    obtain ⟨_, _, ⟨small, rfl⟩, _, _, ⟨rfl, rfl⟩, rfl, rfl⟩ := ok
    exact ⟨small, by simp [read, encode, Constant.tag]⟩
  -- The other constants are words of a fixed size, at most two of them.
  all_goals first
    | obtain ⟨_, _, rfl, rfl, rfl⟩ := ok
    | obtain ⟨_, _, rfl, _, _, rfl, rfl, rfl⟩ := ok
  all_goals exact ⟨trivial, by simp [read, encode, Constant.tag, payload]⟩

end Constant
end StackMaps
