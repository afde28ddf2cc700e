import Cose.LabelMap.Reader

namespace Cose

namespace Header

def algorithm : Int64 := 1

def critical : Int64 := 2

def contentType : Int64 := 3

def keyId : Int64 := 4

def iv : Int64 := 5

def partialIv : Int64 := 6

def counterSignature : Int64 := 7

end Header

namespace LabelMap

/-- The algorithm, where it is given as an integer. -/
def algorithm? (m : LabelMap) : Option Int64 := m.int? Header.algorithm

def keyId? (m : LabelMap) : Option Bytes := m.bytes? Header.keyId

def iv? (m : LabelMap) : Option Bytes := m.bytes? Header.iv

def partialIv? (m : LabelMap) : Option Bytes := m.bytes? Header.partialIv

end LabelMap

/-- A protected header: a map with the bytes that are authenticated in its place. -/
structure ProtectedHeader where
  map : LabelMap
  bytes : Bytes

namespace ProtectedHeader

/-- The header without entries, which is carried as no bytes at all. -/
def empty : ProtectedHeader := ⟨.empty, []⟩

/-- The header with a given map, written once. -/
def ofMap (m : LabelMap) : ProtectedHeader :=
  ⟨m, if m.isEmpty then [] else m.encode⟩

/-- The header with given bytes, which are kept as they are. -/
def ofBytes (bs : Bytes) : Except DecodingError ProtectedHeader := do
  return ⟨← LabelMap.decodeHeader bs, bs⟩

def isEmpty (h : ProtectedHeader) : Bool := h.map.isEmpty

end ProtectedHeader

/-- The protected and the unprotected header of one structure. -/
structure Headers where
  protectedHeader : ProtectedHeader
  unprotected : LabelMap

namespace Headers

/-- Both headers as they open a structure: a byte string, then a map. -/
def encode (h : Headers) : Bytes :=
  Cbor.bytes h.protectedHeader.bytes ++ h.unprotected.encode

def read : Reader Headers := do
  let protectedHeader ← ProtectedHeader.ofBytes (← Reader.bstr "protected header")
  let unprotected ← LabelMap.read "unprotected header"
  return ⟨protectedHeader, unprotected⟩

end Headers

end Cose
