import ContractLinker.Json.Fault

namespace ContractLinker.Json.Text

def hexValue? (c : Char) : Option Nat :=
  if '0' ≤ c ∧ c ≤ '9' then some (c.toNat - '0'.toNat)
  else if 'a' ≤ c ∧ c ≤ 'f' then some (c.toNat - 'a'.toNat + 10)
  else if 'A' ≤ c ∧ c ≤ 'F' then some (c.toNat - 'A'.toNat + 10)
  else none

/-- Four hexadecimal digits. A text that ends within four bytes is incomplete, whatever they are. -/
def hexUnit (cs : List Char) : Except Fault (Nat × List Char) :=
  match cs with
  | a :: b :: c :: d :: rest =>
    match hexValue? a, hexValue? b, hexValue? c, hexValue? d with
    | some a, some b, some c, some d => .ok (((a * 16 + b) * 16 + c) * 16 + d, rest)
    | _, _, _, _ => .error .malformed
  | short =>
    if (String.ofList short).utf8ByteSize < 4 then .error .incomplete else .error .malformed

def isHighSurrogate (n : Nat) : Bool := 0xD800 ≤ n && n ≤ 0xDBFF

def isLowSurrogate (n : Nat) : Bool := 0xDC00 ≤ n && n ≤ 0xDFFF

def lowSurrogate : List Char → Except Fault (Nat × List Char)
  | [] => .error .incomplete
  | '\\' :: [] => .error .incomplete
  | '\\' :: 'u' :: rest =>
    match hexUnit rest with
    | .ok (n, rest) => if isLowSurrogate n then .ok (n, rest) else .error .malformed
    | .error f => .error f
  | _ => .error .malformed

def unicodeEscape (cs : List Char) : Except Fault (Char × List Char) :=
  match hexUnit cs with
  | .error f => .error f
  | .ok (n, rest) =>
    if isLowSurrogate n then .error .malformed
    else if isHighSurrogate n then
      match lowSurrogate rest with
      | .error f => .error f
      | .ok (low, rest) => .ok (Char.ofNat (0x10000 + (n - 0xD800) * 0x400 + (low - 0xDC00)), rest)
    else .ok (Char.ofNat n, rest)

def simpleEscape? : Char → Option Char
  | '"' => some '"'
  | '\\' => some '\\'
  | '/' => some '/'
  | 'b' => some '\x08'
  | 'f' => some '\x0c'
  | 'n' => some '\n'
  | 'r' => some '\r'
  | 't' => some '\t'
  | _ => none

def isControl (c : Char) : Bool := c.toNat < 0x20

/-- The rest of a string behind its opening quote, and what follows it. Every step takes a
character, so as much fuel as there are characters is enough. -/
def readFrom : Nat → List Char → List Char → Except Fault (String × List Char)
  | 0, _, _ => .error .incomplete
  | _, _, [] => .error .incomplete
  | fuel + 1, done, c :: rest =>
    if c = '"' then .ok (String.ofList done.reverse, rest)
    else if c = '\\' then
      match rest with
      | [] => .error .incomplete
      | 'u' :: rest =>
        match unicodeEscape rest with
        | .error f => .error f
        | .ok (c, rest) => readFrom fuel (c :: done) rest
      | e :: rest =>
        match simpleEscape? e with
        | none => .error .malformed
        | some c => readFrom fuel (c :: done) rest
    else if isControl c then .error .malformed
    else readFrom fuel (c :: done) rest

/-- Passes over the rest of a string. Surrogates need not pair here. -/
def skipFrom : Nat → List Char → Except Fault (List Char)
  | 0, _ => .error .incomplete
  | _, [] => .error .incomplete
  | fuel + 1, c :: rest =>
    if c = '"' then .ok rest
    else if c = '\\' then
      match rest with
      | [] => .error .incomplete
      | 'u' :: rest =>
        match hexUnit rest with
        | .error f => .error f
        | .ok (_, rest) => skipFrom fuel rest
      | e :: rest => if (simpleEscape? e).isNone then .error .malformed else skipFrom fuel rest
    else if isControl c then .error .malformed
    else skipFrom fuel rest

/-- Quotes, backslashes and control characters are escaped, and nothing else. -/
def escape (c : Char) : List Char :=
  if c = '"' then ['\\', '"']
  else if c = '\\' then ['\\', '\\']
  else if c = '\x08' then ['\\', 'b']
  else if c = '\x0c' then ['\\', 'f']
  else if c = '\n' then ['\\', 'n']
  else if c = '\r' then ['\\', 'r']
  else if c = '\t' then ['\\', 't']
  else if isControl c then
    ['\\', 'u', '0', '0', Nat.digitChar (c.toNat / 16), Nat.digitChar (c.toNat % 16)]
  else [c]

def quoted (text : String) : String :=
  String.ofList ('"' :: (text.toList.flatMap escape ++ ['"']))

end ContractLinker.Json.Text
