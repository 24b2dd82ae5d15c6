import YamlCheck.Text.Lowercase

/-!
# Letters

An escape may name one half of a pair that writes a character in another encoding.  Such a half is
no character, and no encoding writes it by itself; but a text may hold it, and texts with different
halves are different.  So a text that escapes have been taken out of is made of letters.
-/

namespace YamlCheck.Text

inductive Letter
  | char (c : Char)
  /-- The half with the code `0xd800 + index`. -/
  | half (index : Fin 0x800)
  deriving Repr, DecidableEq

namespace Letter

/-- The letter with a code, if there is a character or a half with it. -/
def ofCode (n : Nat) : Letter :=
  if h : 0xd800 ≤ n ∧ n < 0xe000 then .half ⟨n - 0xd800, by omega⟩ else .char (Char.ofNat n)

def code : Letter → Nat
  | .char c => c.toNat
  | .half index => 0xd800 + index

/-- The character that a letter looks like to those who only know characters. -/
def face : Letter → Char
  | .char c => c
  | .half _ => '\ufffd'

end Letter

structure Letters where
  list : List Letter
  deriving Repr, DecidableEq

namespace Letters

def ofChars (cs : List Char) : Letters := ⟨cs.map .char⟩

def ofText (s : String) : Letters := ofChars s.toList

instance : Coe String Letters := ⟨ofText⟩

instance : Append Letters := ⟨fun s t => ⟨s.list ++ t.list⟩⟩

def isEmpty (s : Letters) : Bool := s.list.isEmpty

/-- The characters of a text without halves. -/
def chars? (s : Letters) : Option (List Char) :=
  s.list.mapM fun
    | .char c => some c
    | .half _ => none

def text? (s : Letters) : Option String := s.chars?.map String.ofList

/-- A text as those see it who only know characters. -/
def faces (s : Letters) : List Char := s.list.map Letter.face

def join (sep : String) : List Letters → Letters
  | [] => ofText ""
  | [s] => s
  | s :: rest => s ++ ofText sep ++ join sep rest

/-- The lower-case form; `run` holds the characters since the last half, last one first. -/
def lowercaseFrom (run : List Char) : List Letter → Letters
  | [] => lowercase (String.ofList run.reverse)
  | .char c :: rest => lowercaseFrom (c :: run) rest
  | .half index :: rest =>
    ofText (lowercase (String.ofList run.reverse)) ++ ⟨[.half index]⟩ ++ lowercaseFrom [] rest

def lowercase (s : Letters) : Letters := lowercaseFrom [] s.list

end Letters

end YamlCheck.Text
