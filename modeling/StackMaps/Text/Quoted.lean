/-!
Quoted text inside error messages: between double quotes, with quotes, backslashes and control
characters escaped.
-/

namespace StackMaps.Quoted

def hex (n : Nat) : String := String.ofList (Nat.toDigits 16 n)

def escape (c : Char) : String :=
  match c with
  | '"' => "\\\""
  | '\\' => "\\\\"
  | '\n' => "\\n"
  | '\r' => "\\r"
  | '\t' => "\\t"
  | _ =>
    if c.toNat = 0 then "\\0"
    else if c.toNat < 0x20 ∨ c.toNat = 0x7F then "\\u\x7b" ++ hex c.toNat ++ "\x7d"
    else c.toString

def text (s : String) : String :=
  "\"" ++ String.join (s.toList.map escape) ++ "\""

def list (items : List String) : String :=
  "[" ++ ", ".intercalate (items.map text) ++ "]"

end StackMaps.Quoted
