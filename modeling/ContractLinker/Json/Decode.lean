import ContractLinker.Json.Doc

namespace ContractLinker.Json

/-- Takes the number of arrays and objects around the document too. -/
abbrev Decode (α : Type) := Nat → Doc → Except Fault α

namespace Doc

def refuse : Doc → Fault
  | .number (.error fault) | .string (.error fault) => fault
  | .brokenString read _ | .broken read _ => read
  | .missing fault => fault
  | _ => .mismatch none

def asString : Doc → Except Fault String
  | .string s => s
  | doc => .error doc.refuse

def asBool : Doc → Except Fault Bool
  | .bool b => .ok b
  | doc => .error doc.refuse

def asNat (max : Nat) : Doc → Except Fault Nat
  | .number (.ok (.int value)) =>
    if 0 ≤ value ∧ value ≤ max then .ok value.toNat else .error (.mismatch none)
  | doc => .error doc.refuse

/-- Arrays and objects may stand inside each other 127 levels deep. -/
def enter (depth : Nat) : Except Fault Unit :=
  if depth + 1 < 128 then .ok () else .error .malformed

def atEnd (cut : Option Fault) : Except Fault Unit :=
  match cut with
  | none => .ok ()
  | some fault => .error fault

def keyFault : Doc → Fault
  | .brokenString read _ => read
  | .missing fault => fault
  | _ => .malformed

def skip (doc : Doc) : Except Fault Unit := atEnd doc.skipFault?

mutual

/-- The whole value, members sorted by name. -/
def keep (depth : Nat) : Doc → Except Fault Json
  | .null => .ok .null
  | .bool b => .ok (.bool b)
  | .number n => return .number (← n)
  | .string s => return .string (← s)
  | .array items cut => do
    enter depth
    keepItems (depth + 1) [] cut items
  | .object members cut => do
    enter depth
    return .object (← keepMembers (depth + 1) [] cut members)
  | .brokenString read _ | .broken read _ => .error read
  | .missing fault => .error fault

def keepItems (depth : Nat) (done : List Json) (cut : Option Fault) :
    List Doc → Except Fault Json
  | [] => do
    atEnd cut
    return .array done.reverse
  | item :: items => do
    let value ← keep depth item
    keepItems depth (value :: done) cut items

def keepMembers (depth : Nat) (done : List (String × Json)) (cut : Option Fault) :
    List (Option (Except Fault String) × Doc) → Except Fault (List (String × Json))
  | [] => do
    atEnd cut
    return done
  | (none, found) :: _ => .error found.keyFault
  | (some key, doc) :: members => do
    let name ← key
    let value ← keep depth doc
    keepMembers depth (insertMember name value done) cut members

end

end Doc

namespace Decode

def string : Decode String := fun _ doc => doc.asString

def bool : Decode Bool := fun _ doc => doc.asBool

def nat (max : Nat) : Decode Nat := fun _ doc => doc.asNat max

def json : Decode Json := fun depth doc => doc.keep depth

def members : Decode (List (String × Json)) := fun depth doc =>
  match doc with
  | .object members cut => do
    Doc.enter depth
    Doc.keepMembers (depth + 1) [] cut members
  | doc => .error doc.refuse

def list (item : Decode α) : Decode (List α) := fun depth doc =>
  match doc with
  | .array items cut => do
    Doc.enter depth
    let values ← items.mapM (item (depth + 1))
    Doc.atEnd cut
    return values
  | doc => .error doc.refuse

/-- `null` stands for `none`. -/
def optional (item : Decode α) : Decode (Option α) := fun depth doc =>
  match doc with
  | .null => .ok none
  | doc => some <$> item depth doc

def named (values : String → Option α) (name : String) : Except Fault α :=
  match values name with
  | some a => .ok a
  | none => .error (.mismatch none)

/-- One of some named values: its name, or an object with that name and `null` alone. -/
def oneOf (values : String → Option α) : Decode α := fun depth doc =>
  match doc with
  | .string name => do named values (← name)
  | .brokenString read _ => .error read
  | .missing fault => .error fault
  | .object members cut => do
    Doc.enter depth
    match members with
    | [] => .error .malformed
    | (none, found) :: _ => .error found.keyFault
    | (some key, doc) :: more =>
      let value ← named values (← key)
      match doc with
      | .null => pure ()
      | doc => .error doc.refuse
      if more.isEmpty then Doc.atEnd cut else .error .malformed
      return value
  | _ => .error .malformed

/-- A field of a record, and how a value read for it goes into the record. -/
structure Field (α : Type) where
  name : String
  required : Bool
  read : Decode (α → α)

def field (name : String) (item : Decode β) (put : α → β → α) : Field α :=
  ⟨name, true, fun depth doc => (fun b a => put a b) <$> item depth doc⟩

def optionalField (name : String) (item : Decode β) (put : α → β → α) : Field α :=
  ⟨name, false, fun depth doc => (fun b a => put a b) <$> item depth doc⟩

def readMembers (fields : List (Field α)) (depth : Nat) (cut : Option Fault) (seen : List String)
    (record : α) : List (Option (Except Fault String) × Doc) → Except Fault α
  | [] => do
    Doc.atEnd cut
    if fields.all fun f => !f.required || seen.contains f.name then return record
    else throw (.mismatch none)
  | (none, found) :: _ => .error found.keyFault
  | (some key, doc) :: members => do
    let name ← key
    match fields.find? (·.name = name) with
    | none =>
      doc.skip
      readMembers fields depth cut seen record members
    | some f =>
      if seen.contains name then throw (.mismatch none)
      let put ← f.read depth doc
      readMembers fields depth cut (name :: seen) (put record) members

def readItems (depth : Nat) (cut : Option Fault) (record : α) :
    List (Field α) → List Doc → Except Fault α
  | [], [] => do
    Doc.atEnd cut
    return record
  | [], _ :: _ => .error .malformed
  | fields, [] => do
    Doc.atEnd cut
    if fields.all fun f => !f.required then return record else throw (.mismatch none)
  | f :: fields, item :: items => do
    let put ← f.read depth item
    readItems depth cut (put record) fields items

/-- A record, starting from `blank`, which holds what stands for missing fields. Unknown members
are passed over, and an array may hold the fields in order. -/
def record (blank : α) (fields : List (Field α)) : Decode α := fun depth doc =>
  match doc with
  | .object members cut => do
    Doc.enter depth
    readMembers fields (depth + 1) cut [] blank members
  | .array items cut => do
    Doc.enter depth
    readItems (depth + 1) cut blank fields items
  | doc => .error doc.refuse

/-- Reads a text that holds one value and nothing else. -/
def ofText (item : Decode α) (text : String) : Except Fault α := do
  let document := Doc.parse text
  let value ← item 0 document.root
  if document.trailing then throw .malformed
  return value

mutual

def docOf : Json → Doc
  | .null => .null
  | .bool b => .bool b
  | .number n => .number (.ok n)
  | .string s => .string (.ok s)
  | .array items => .array (docsOf items) none
  | .object members => .object (membersOf members) none

def docsOf : List Json → List Doc
  | [] => []
  | item :: items => docOf item :: docsOf items

def membersOf : List (String × Json) → List (Option (Except Fault String) × Doc)
  | [] => []
  | (name, value) :: members => (some (.ok name), docOf value) :: membersOf members

end

/-- Reads from a value; all faults are mismatches there. -/
def ofJson (item : Decode α) (value : Json) : Except Fault α :=
  match item 0 (docOf value) with
  | .ok a => .ok a
  | .error (.mismatch note) => .error (.mismatch note)
  | .error _ => .error (.mismatch none)

end Decode
end ContractLinker.Json
