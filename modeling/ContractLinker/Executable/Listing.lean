import ContractLinker.Executable

namespace ContractLinker.Executable

def checksumText (x : Executable) : String := "0x" ++ Hex.padded 8 x.checksum.toNat

def headerLines (x : Executable) : List String :=
  [s!"Compiler: {x.compiler}"] ++
    (if x.source = "" then [] else [s!"Source:   {x.source}"]) ++
    [s!"Checksum: {x.checksumText}", s!"Script:   {x.script.length} bytes"]

def tokenLines (x : Executable) : List String :=
  if x.tokens.isEmpty then []
  else "" :: "Tokens:" :: x.tokens.zipIdx.map fun (token, i) => s!"  [{i}] {token.text}"

def listing (x : Executable) : Except CodecError String := do
  let code := (← x.instructions).map fun ins => s!"  {ins.text}"
  let lines := x.headerLines ++ x.tokenLines ++ "" :: "Disassembly:" :: code
  return lines.foldl (fun out line => out ++ line ++ "\n") ""

end ContractLinker.Executable
