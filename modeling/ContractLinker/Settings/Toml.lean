import ContractLinker.Settings.Toml.Word

namespace ContractLinker.Toml

/-- A reader of text; `none` means that the text is refused. -/
abbrev Scan := StateT (List Char) Option

namespace Scan

def next : Scan Char := do
  match ← get with
  | [] => failure
  | c :: rest =>
    set rest
    return c

def accept (c : Char) : Scan Bool := do
  match ← get with
  | [] => return false
  | d :: rest =>
    if c = d then set rest
    return c = d

def expect (c : Char) : Scan Unit := do
  if !(← accept c) then failure

def takeWhile (p : Char → Bool) : Scan (List Char) := do
  let (taken, rest) := (← get).span p
  set rest
  return taken

def repeatFor (step : σ → Scan (σ ⊕ α)) : Nat → σ → Scan α
  | 0, _ => failure
  | fuel + 1, s => do
    match ← step s with
    | .inl s => repeatFor step fuel s
    | .inr a => return a

/-- Repeats a step until it has an answer. Every step but the last takes a character. -/
def loop (step : σ → Scan (σ ⊕ α)) (s : σ) : Scan α := do
  repeatFor step ((← get).length + 1) s

end Scan

open Scan

def isBlank (c : Char) : Bool := c = ' ' || c = '\t'

def isPrinted (c : Char) : Bool := c = '\t' || (0x20 ≤ c.toNat && c.toNat ≠ 0x7F)

def isBare (c : Char) : Bool := c.isAlphanum || c = '_' || c = '-'

def isWord (c : Char) : Bool := isBare c || c = '+' || c = '.' || c = ':'

def blanks : Scan Unit := do
  let _ ← takeWhile isBlank

def comment : Scan Unit := do
  if ← accept '#' then
    let _ ← takeWhile isPrinted

/-- A carriage return counts only in front of a newline. -/
def newline : Scan Bool := do
  match ← get with
  | '\n' :: rest | '\r' :: '\n' :: rest =>
    set rest
    return true
  | _ => return false

def gap : Scan Unit :=
  loop (fun () => do
    blanks
    comment
    return if ← newline then .inl () else .inr ()) ()

def lineEnd : Scan Unit := do
  blanks
  comment
  if !(← newline) && !(← get).isEmpty then failure

def codePoint (count : Nat) : Scan Char := do
  let cs ← get
  let digits : List Nat ← liftM ((cs.take count).mapM hexValue?)
  let n := digits.foldl (fun n d => n * 16 + d) 0
  set (cs.drop count)
  if digits.length = count ∧ n.isValidChar then return Char.ofNat n else failure

def escape : Scan Char := do
  match ← next with
  | 'b' => return '\x08'
  | 't' => return '\t'
  | 'n' => return '\n'
  | 'f' => return '\x0c'
  | 'r' => return '\r'
  | '"' => return '"'
  | '\\' => return '\\'
  | 'u' => codePoint 4
  | 'U' => codePoint 8
  | _ => failure

def basicString : Scan String :=
  loop (fun done => do
    match ← next with
    | '"' => return .inr (String.ofList done.reverse)
    | '\\' => return .inl ((← escape) :: done)
    | c => if isPrinted c then return .inl (c :: done) else failure) []

def literalString : Scan String := do
  let text ← takeWhile fun c => c ≠ '\'' && isPrinted c
  expect '\''
  return String.ofList text

/-- Behind a backslash, the end of a line with all blanks and empty lines after it. -/
def lineBreak : Scan Bool := do
  let here ← get
  blanks
  if ← newline then
    loop (fun () => do
      blanks
      return if ← newline then .inl () else .inr ()) ()
    return true
  else
    set here
    return false

/-- Quotes inside a long string: three of them end it, and up to two more belong to its text. Gives
the number of those, and whether the string ends. -/
def quotes (mark : Char) : Scan (Nat × Bool) := do
  let run ← takeWhile (· = mark)
  if run.length < 3 then return (run.length, false)
  else if run.length ≤ 5 then return (run.length - 3, true)
  else failure

/-- A string of several lines behind its three opening quotes. A newline right there is dropped. -/
def longString (mark : Char) (escapes : Bool) : Scan String := do
  let _ ← newline
  loop (fun done => do
    if ← newline then return .inl ('\n' :: done)
    if (← get).head? = some mark then
      let (count, ends) ← quotes mark
      let done := List.replicate count mark ++ done
      return if ends then .inr (String.ofList done.reverse) else .inl done
    let c ← next
    if escapes && c = '\\' then
      if ← lineBreak then return .inl done else return .inl ((← escape) :: done)
    else if isPrinted c then return .inl (c :: done)
    else failure) []

def simpleKey : Scan String := do
  if ← accept '"' then basicString
  else if ← accept '\'' then literalString
  else
    match ← takeWhile isBare with
    | [] => failure
    | key => return String.ofList key

/-- A key has fewer parts than this, and fewer arrays and inline tables stand inside each other. -/
def depthLimit : Nat := 80

def dottedKey : Scan (List String × String) :=
  loop (fun done => do
    blanks
    let key ← simpleKey
    blanks
    if ← accept '.' then return .inl (key :: done)
    else if done.length + 1 < depthLimit then return .inr (done.reverse, key)
    else failure) []

/-- A date and a time may have one blank between them. -/
def word : Scan Item := do
  let text ← takeWhile isWord
  if isDate text then
    match ← get with
    | ' ' :: rest =>
      let (time, rest) := rest.span isWord
      if isZonedTime time then set rest
    | _ => pure ()
  wordItem? text

def scalar : Scan Item := do
  match ← get with
  | '"' :: '"' :: '"' :: rest =>
    set rest
    return .string (← longString '"' true)
  | '\'' :: '\'' :: '\'' :: rest =>
    set rest
    return .string (← longString '\'' false)
  | '"' :: rest =>
    set rest
    return .string (← basicString)
  | '\'' :: rest =>
    set rest
    return .string (← literalString)
  | _ => word

/-- Items of an array behind its opening bracket. A comma may stand behind the last one. -/
def arrayItems (item : Scan Item) : Scan (List Item) :=
  loop (fun done => do
    gap
    if ← accept ']' then return .inr done.reverse
    let done := (← item) :: done
    gap
    if ← accept ',' then return .inl done
    expect ']'
    return .inr done.reverse) []

def inlineEntries (item : Scan Item) : Scan Entries := do
  blanks
  if ← accept '\x7d' then return []
  loop (fun done => do
    let (path, key) ← dottedKey
    expect '='
    blanks
    let entries ← put key (← item) path done
    blanks
    if ← accept ',' then return .inl entries
    expect '\x7d'
    return .inr entries) []

def value : (depth : Nat) → Scan Item
  | 0 => scalar
  | depth + 1 => do
    if ← accept '[' then return .array (← arrayItems (value depth))
    else if ← accept '\x7b' then return .inline (← inlineEntries (value depth))
    else scalar

structure State where
  table : List String := []
  root : Entries := []

def assignment (s : State) : Scan State := do
  let (path, key) ← dottedKey
  expect '='
  blanks
  let item ← value (depthLimit - 1)
  lineEnd
  return { s with root := ← within (put key item path) s.table s.root }

def statement (s : State) : Scan State := do
  if ← accept '[' then
    let several ← accept '['
    let (path, last) ← dottedKey
    expect ']'
    if several then expect ']'
    lineEnd
    let change := if several then appendTable last else openTable last
    return ⟨path ++ [last], ← within change path s.root⟩
  else assignment s

def document : Scan Entries :=
  loop (fun s => do
    gap
    if (← get).isEmpty then return .inr s.root else return .inl (← statement s)) {}

/-- The top table of a text, which may start with a byte order mark. -/
def parse (text : String) : Option Entries :=
  let cs := match text.toList with
    | '﻿' :: rest => rest
    | cs => cs
  (document cs).map (·.1)

end ContractLinker.Toml
