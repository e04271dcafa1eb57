/-!
UTF-8 that may be damaged. What is no character is replaced: the longest part of a character that
stands alone, or else a single byte, counts as one.
-/

namespace StackMaps.LossyUtf8

def replacement : Char := Char.ofNat 0xFFFD

structure Begun where
  value : Nat
  owed : Nat
  low : Nat
  high : Nat

/-- What a first byte begins, if it begins a character of several bytes. Bounds on the second byte
leave out surrogates, numbers that are too large and forms longer than they need to be. -/
def Begun.ofLead? (lead : Nat) : Option Begun :=
  if 0xC2 ≤ lead ∧ lead ≤ 0xDF then some ⟨lead % 0x20, 0, 0x80, 0xBF⟩
  else if 0xE0 ≤ lead ∧ lead ≤ 0xEF then
    some ⟨lead % 0x10, 1, if lead = 0xE0 then 0xA0 else 0x80, if lead = 0xED then 0x9F else 0xBF⟩
  else if 0xF0 ≤ lead ∧ lead ≤ 0xF4 then
    some ⟨lead % 0x08, 2, if lead = 0xF0 then 0x90 else 0x80, if lead = 0xF4 then 0x8F else 0xBF⟩
  else none

structure State where
  done : List Char
  begun : Option Begun

namespace State

def settle (st : State) : List Char :=
  match st.begun with
  | none => st.done
  | some _ => replacement :: st.done

def start (done : List Char) (b : Nat) : State :=
  if b < 0x80 then ⟨Char.ofNat b :: done, none⟩
  else
    match Begun.ofLead? b with
    | some begun => ⟨done, some begun⟩
    | none => ⟨replacement :: done, none⟩

def step (st : State) (byte : UInt8) : State :=
  let b := byte.toNat
  match st.begun with
  | none => start st.done b
  | some c =>
    if c.low ≤ b ∧ b ≤ c.high then
      let value := c.value * 0x40 + b % 0x40
      match c.owed with
      | 0 => ⟨Char.ofNat value :: st.done, none⟩
      | owed + 1 => ⟨st.done, some ⟨value, owed, 0x80, 0xBF⟩⟩
    else start st.settle b

end State

def decode (bytes : List UInt8) : String :=
  String.ofList (bytes.foldl State.step ⟨[], none⟩).settle.reverse

end StackMaps.LossyUtf8
