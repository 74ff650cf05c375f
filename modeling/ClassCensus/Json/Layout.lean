import ClassCensus.Json.Text

/-!
# Writing strings and values

A string is written between quotes. Quotes and backslashes are escaped, and so are the
control characters below the space: by a letter where there is one, by their code in four
lower-case hexadecimal digits otherwise. Every other character stands for itself.

Values are laid out for readers: every part of a list or an object stands on a line of its
own, two spaces deeper than what it is part of, and the closing bracket is back at the
depth of the opening one. A colon is followed by a space. Brackets without parts stay
together. A part is given as it is written at its own depth, so writing goes from the
inside out and no tree of values is built.
-/

namespace ClassCensus.Json.Text

def letter? (c : Char) : Option Char :=
  match c with
  | '"' => some '"'
  | '\\' => some '\\'
  | '\x08' => some 'b'
  | '\x0c' => some 'f'
  | '\n' => some 'n'
  | '\r' => some 'r'
  | '\t' => some 't'
  | _ => none

def hexDigit (n : Nat) : Char :=
  Nat.digitChar n

def encodeChar (c : Char) : List Char :=
  match letter? c with
  | some l => ['\\', l]
  | none =>
    if c.toNat < 0x20 then ['\\', 'u', '0', '0', hexDigit (c.toNat / 16), hexDigit (c.toNat % 16)]
    else [c]

def encode (s : List Char) : List Char :=
  s.flatMap encodeChar

def quoted (s : List Char) : List Char :=
  '"' :: (encode s ++ ['"'])

@[simp] theorem encode_nil : encode [] = [] := rfl

theorem encode_cons (c : Char) (s : List Char) : encode (c :: s) = encodeChar c ++ encode s := rfl

end ClassCensus.Json.Text

namespace ClassCensus.Json.Layout

def newline (depth : Nat) : List Char :=
  '\n' :: List.replicate (2 * depth) ' '

/-- The parts behind the first, each behind a comma. -/
def further (depth : Nat) (parts : List (List Char)) : List Char :=
  parts.flatMap fun p => ',' :: (newline (depth + 1) ++ p)

def block (opening closing : Char) (depth : Nat) : List (List Char) → List Char
  | [] => [opening, closing]
  | p :: parts =>
    opening :: (newline (depth + 1) ++ p ++ further depth parts ++ newline depth ++ [closing])

def list (depth : Nat) (items : List (List Char)) : List Char :=
  block '[' ']' depth items

def object (depth : Nat) (members : List (String × List Char)) : List Char :=
  block '{' '}' depth (members.map fun m => Text.quoted m.1.toList ++ ':' :: ' ' :: m.2)

def natural (n : Nat) : List Char :=
  Nat.toDigits 10 n

def truth : Bool → List Char
  | true => ['t', 'r', 'u', 'e']
  | false => ['f', 'a', 'l', 's', 'e']

def null : List Char := ['n', 'u', 'l', 'l']

def string (s : String) : List Char :=
  Text.quoted s.toList

@[simp] theorem further_nil (depth : Nat) : further depth [] = [] := rfl

theorem further_cons (depth : Nat) (p : List Char) (parts : List (List Char)) :
    further depth (p :: parts) = ',' :: (newline (depth + 1) ++ p ++ further depth parts) := by
  simp [further]

end ClassCensus.Json.Layout
