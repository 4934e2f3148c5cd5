import ContractLinker.Json.Number
import ContractLinker.Json.Text

namespace ContractLinker.Json

/-- A number or a string may be in order as a word and yet have no value: the fault shows only where
the value is used. A broken word has one fault for a reader that wants its value and one for a
reader that passes over it. -/
inductive Lexeme where
  | openArray
  | closeArray
  | openObject
  | closeObject
  | comma
  | colon
  | null
  | bool (value : Bool)
  | number (value : Except Fault Number)
  | string (value : Except Fault String)
  | brokenString (read skip : Fault)
  | broken (read skip : Fault)

namespace Lexeme

def isBlank (c : Char) : Bool := c = ' ' || c = '\n' || c = '\t' || c = '\r'

def expect : (word cs : List Char) → Except Fault (List Char)
  | [], cs => .ok cs
  | _ :: _, [] => .error .incomplete
  | w :: word, c :: cs => if w = c then expect word cs else .error .malformed

/-- A string behind its opening quote, and what follows if it comes to an end. -/
def scanString (size : Nat) (cs : List Char) : Lexeme × Option (List Char) :=
  match Text.readFrom size [] cs with
  | .ok (s, rest) => (.string (.ok s), some rest)
  | .error read =>
    match Text.skipFrom size cs with
    | .ok rest => (.string (.error read), some rest)
    | .error skip => (.brokenString read skip, none)

def scanNumber (cs : List Char) : Lexeme × Option (List Char) :=
  match Literal.scan cs with
  | .error read => (.broken read .malformed, none)
  | .ok (literal, rest) =>
    match literal.value with
    | some n => (.number (.ok n), some rest)
    | none => (.number (.error .malformed), some rest)

def scanWord (word : String) (meaning : Lexeme) (cs : List Char) : Lexeme × Option (List Char) :=
  match expect word.toList cs with
  | .ok rest => (meaning, some rest)
  | .error f => (.broken f f, none)

def scan (size : Nat) (c : Char) (rest : List Char) : Lexeme × Option (List Char) :=
  match c with
  | '[' => (.openArray, some rest)
  | ']' => (.closeArray, some rest)
  | '\x7b' => (.openObject, some rest)
  | '\x7d' => (.closeObject, some rest)
  | ',' => (.comma, some rest)
  | ':' => (.colon, some rest)
  | '"' => scanString size rest
  | 'n' => scanWord "ull" .null rest
  | 't' => scanWord "rue" (.bool true) rest
  | 'f' => scanWord "alse" (.bool false) rest
  | c =>
    if c = '-' ∨ c.isDigit then scanNumber (c :: rest) else (.broken .malformed .malformed, none)

def lexFrom (size : Nat) : Nat → List Lexeme → List Char → List Lexeme
  | 0, done, _ => done.reverse
  | _, done, [] => done.reverse
  | fuel + 1, done, c :: rest =>
    if isBlank c then lexFrom size fuel done rest
    else
      match scan size c rest with
      | (lexeme, some rest) => lexFrom size fuel (lexeme :: done) rest
      | (lexeme, none) => (lexeme :: done).reverse

/-- The words of a text; each takes at least one character. -/
def lex (cs : List Char) : List Lexeme :=
  let size := cs.length
  lexFrom size size [] cs

end Lexeme
end ContractLinker.Json
