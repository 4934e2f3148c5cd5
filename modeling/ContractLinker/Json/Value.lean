import ContractLinker.Json.Number
import ContractLinker.Json.Text

namespace ContractLinker

/-- Members stand in the order in which they are written. -/
inductive Json where
  | null
  | bool (value : Bool)
  | number (value : Json.Number)
  | string (value : String)
  | array (items : List Json)
  | object (members : List (String × Json))

namespace Json

mutual

def beq : Json → Json → Bool
  | .null, .null => true
  | .bool a, .bool b => a == b
  | .number a, .number b => a == b
  | .string a, .string b => a == b
  | .array a, .array b => beqItems a b
  | .object a, .object b => beqMembers a b
  | _, _ => false

def beqItems : List Json → List Json → Bool
  | [], [] => true
  | a :: as, b :: bs => beq a b && beqItems as bs
  | _, _ => false

def beqMembers : List (String × Json) → List (String × Json) → Bool
  | [], [] => true
  | (k, a) :: as, (l, b) :: bs => k == l && beq a b && beqMembers as bs
  | _, _ => false

end

instance : BEq Json := ⟨beq⟩

/-- Puts a member among members that are sorted by name; an older one of that name is replaced. -/
def insertMember (name : String) (value : Json) : List (String × Json) → List (String × Json)
  | [] => [(name, value)]
  | (key, old) :: rest =>
    if name = key then (name, value) :: rest
    else if name < key then (name, value) :: (key, old) :: rest
    else (key, old) :: insertMember name value rest

def newline (depth : Nat) : String :=
  String.ofList ('\n' :: List.replicate (2 * depth) ' ')

mutual

def write (depth : Nat) (out : String) : Json → String
  | .null => out ++ "null"
  | .bool true => out ++ "true"
  | .bool false => out ++ "false"
  | .number n => out ++ n.text
  | .string s => out ++ Text.quoted s
  | .array [] => out ++ "[]"
  | .array (item :: items) =>
    writeItems (depth + 1) (write (depth + 1) (out ++ "[" ++ newline (depth + 1)) item) items ++
      newline depth ++ "]"
  | .object [] => out ++ "\x7b\x7d"
  | .object ((name, value) :: members) =>
    let head := out ++ "\x7b" ++ newline (depth + 1) ++ Text.quoted name ++ ": "
    writeMembers (depth + 1) (write (depth + 1) head value) members ++ newline depth ++ "\x7d"

def writeItems (depth : Nat) (out : String) : List Json → String
  | [] => out
  | item :: items => writeItems depth (write depth (out ++ "," ++ newline depth) item) items

def writeMembers (depth : Nat) (out : String) : List (String × Json) → String
  | [] => out
  | (name, value) :: members =>
    let head := out ++ "," ++ newline depth ++ Text.quoted name ++ ": "
    writeMembers depth (write depth head value) members

end

def pretty (value : Json) : String := write 0 "" value

end Json
end ContractLinker
