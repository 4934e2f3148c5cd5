namespace ContractLinker.Json

inductive Fault where
  | incomplete
  /-- The text is not JSON, or holds more than this reader takes. -/
  | malformed
  /-- A value is not what its place asks for; `note` is the rule it breaks, if it has words. -/
  | mismatch (note : Option String)
  deriving DecidableEq, Repr

end ContractLinker.Json
