import ContractLinker.Json.Lexeme
import ContractLinker.Json.Value

namespace ContractLinker.Json

/-- A text as far as it goes, so that faults come to light in their order. An array or object that
is never closed has the fault of the place where the text breaks off. The last member of an object
has no key when something else stands in the place of one. -/
inductive Doc where
  | null
  | bool (value : Bool)
  | number (value : Except Fault Number)
  | string (value : Except Fault String)
  | array (items : List Doc) (cut : Option Fault)
  | object (members : List (Option (Except Fault String) × Doc)) (cut : Option Fault)
  | brokenString (read skip : Fault)
  | broken (read skip : Fault)
  | missing (fault : Fault)

namespace Doc

/-- An open array or object: what it holds so far, the latest first, and, while a member's value is
awaited, the key. -/
inductive Frame where
  | array (items : List Doc)
  | object (members : List (Option (Except Fault String) × Doc))
  | member (members : List (Option (Except Fault String) × Doc)) (key : Except Fault String)

namespace Frame

/-- Puts `value` in, where the text breaks off inside it or behind it. -/
def cut (fault : Fault) (value : Doc) : Frame → Doc
  | .array items => .array (value :: items).reverse (some fault)
  | .object members => .object ((none, value) :: members).reverse (some fault)
  | .member members key => .object ((some key, value) :: members).reverse (some fault)

end Frame

inductive Mode where
  | value (first : Bool)
  | key (first : Bool)
  | colon (key : Except Fault String)
  | after (value : Doc)

structure Document where
  root : Doc
  trailing : Bool

/-- The document that breaks off inside or behind `value`, within the open frames. -/
def breakOff (fault : Fault) (value : Doc) (stack : List Frame) : Document :=
  ⟨stack.foldl (fun inner frame => frame.cut fault inner) value, false⟩

/-- What a word is in the place of a value; `none` if it opens an array or an object. -/
def ofLexeme? : Lexeme → Option Doc
  | .null => some .null
  | .bool b => some (.bool b)
  | .number n => some (.number n)
  | .string s => some (.string s)
  | .brokenString read skip => some (.brokenString read skip)
  | .broken read skip => some (.broken read skip)
  | .openArray | .openObject => none
  | .closeArray | .closeObject | .comma | .colon => some (.broken .malformed .malformed)

/-- The fault of passing over what stands in the place of a value. -/
def skipFault? : Doc → Option Fault
  | .brokenString _ skip | .broken _ skip => some skip
  | .missing fault => some fault
  | .array _ cut | .object _ cut => cut
  | _ => none

/-- What stands in the place of a key that is not one. -/
def badKey : Lexeme → Doc
  | .openArray => .array [] none
  | .openObject => .object [] none
  | .closeObject => .missing .malformed
  | lexeme => (ofLexeme? lexeme).getD (.missing .malformed)

def build : Mode → List Frame → List Lexeme → Document
  | .value _, stack, [] => breakOff .incomplete (.missing .incomplete) stack
  | .value first, stack, word :: words =>
    match word, first, stack with
    | .openArray, _, _ => build (.value true) (.array [] :: stack) words
    | .openObject, _, _ => build (.key true) (.object [] :: stack) words
    | .closeArray, true, .array [] :: stack => build (.after (.array [] none)) stack words
    | word, _, _ =>
      let value := (ofLexeme? word).getD (.missing .malformed)
      match value.skipFault? with
      | some fault => breakOff fault value stack
      | none => build (.after value) stack words
  | .key _, stack, [] => breakOff .incomplete (.missing .incomplete) stack
  | .key first, stack, word :: words =>
    match word, first, stack with
    | .string key, _, .object _ :: _ => build (.colon key) stack words
    | .closeObject, true, .object [] :: stack => build (.after (.object [] none)) stack words
    | .brokenString read skip, _, _ => breakOff skip (.brokenString read skip) stack
    | word, _, _ => breakOff .malformed (badKey word) stack
  | .colon key, .object members :: stack, words =>
    match words with
    | .colon :: words => build (.value false) (.member members key :: stack) words
    | [] => breakOff .incomplete (.missing .incomplete) (.member members key :: stack)
    | _ => breakOff .malformed (.missing .malformed) (.member members key :: stack)
  | .colon _, stack, _ => breakOff .malformed (.missing .malformed) stack
  | .after value, [], words => ⟨value, !words.isEmpty⟩
  | .after value, frame :: stack, words =>
    match frame, words with
    | .array items, .comma :: words => build (.value false) (.array (value :: items) :: stack) words
    | .array items, .closeArray :: words =>
      build (.after (.array (value :: items).reverse none)) stack words
    | .member members key, .comma :: words =>
      build (.key false) (.object ((some key, value) :: members) :: stack) words
    | .member members key, .closeObject :: words =>
      build (.after (.object ((some key, value) :: members).reverse none)) stack words
    | frame, [] => breakOff .incomplete value (frame :: stack)
    | frame, _ => breakOff .malformed value (frame :: stack)

def parse (text : String) : Document := build (.value false) [] (Lexeme.lex text.toList)

end Doc
end ContractLinker.Json
