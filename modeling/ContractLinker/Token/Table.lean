import Std.Data.HashMap
import ContractLinker.Assembly.Error
import ContractLinker.Outcome
import ContractLinker.Token

namespace ContractLinker

structure TokenTable where
  tokens : Array Token := #[]
  index : Std.HashMap Token Nat := ∅

namespace TokenTable

def capacity : Nat := 65536

def intern (table : TokenTable) (token : Token) : Outcome CompileError TokenTable (Nat × Bool) :=
  match table.index[token]? with
  | some i => (.ok (i, false), table)
  | none =>
    let next := table.tokens.size
    if next < capacity then
      (.ok (next, true), ⟨table.tokens.push token, table.index.insert token next⟩)
    else (.error .tokenTableOverflow, table)

def get? (table : TokenTable) (i : Nat) : Option Token := table.tokens[i]?

def toList (table : TokenTable) : List Token := table.tokens.toList

end TokenTable
end ContractLinker
