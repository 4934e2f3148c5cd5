import ContractLinker.Codec.Error

namespace ContractLinker

/-- The identifier of a contract; its text has the last byte first. -/
structure Hash160 where
  bytes : Bytes
  length_eq : bytes.length = 20
  deriving DecidableEq

namespace Hash160

instance : Hashable Hash160 where
  hash h := hash h.bytes

/-- Twenty bytes; fewer are filled up with zeros and more are cut off. -/
def ofBytes (bytes : Bytes) : Hash160 := ⟨Bytes.resize 20 bytes, Bytes.length_resize 20 bytes⟩

def text (h : Hash160) : String := "0x" ++ Hex.encode h.bytes.reverse

/-- The digits of a text, behind one leading `0x` or without it. -/
def digits (text : String) : List Char :=
  match text.toList with
  | '0' :: 'x' :: rest => rest
  | cs => cs

def ofText (text : String) : Except CodecError Hash160 :=
  match Hex.decodeExactly 20 ((digits text).flatMap String.utf8EncodeChar) with
  | .error cause => .error (.invalidFormat (.hash160 text cause))
  | .ok bytes => .ok (ofBytes bytes.reverse)

theorem bytes_ofBytes {bytes : Bytes} (h : bytes.length = 20) : (ofBytes bytes).bytes = bytes := by
  simp [ofBytes, Bytes.resize, h, List.take_of_length_le]

theorem ofBytes_bytes (h : Hash160) : ofBytes h.bytes = h := by
  obtain ⟨bytes, hlength⟩ := h
  simp [ofBytes, Bytes.resize, hlength, List.take_of_length_le]

end Hash160
end ContractLinker
