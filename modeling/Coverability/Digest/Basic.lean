import Coverability.Digest.Sha256

/-! Digests with a domain. The domain keeps hashes of different kinds of data apart, so the
label of an edge and the encoding of a graph are never hashed from one text. -/

namespace Coverability
open Text

structure Digest where
  bytes : Vector UInt8 32
deriving DecidableEq

namespace Digest

def zero : Digest := ⟨Vector.replicate 32 0⟩

instance : Inhabited Digest := ⟨zero⟩

/-- What is hashed for some data under a domain. -/
def preimage (domain data : Bytes) : Bytes :=
  utf8 "GTS:" ++ domain ++ utf8 ":v1" ++ littleEndian 8 data.length ++ data

def ofData (domain data : Bytes) : Digest := ⟨Sha256.hash (preimage domain data)⟩

/-- Digests of other lengths are cut or filled up with zeros. -/
def ofBytes (bytes : Bytes) : Digest := ⟨Vector.ofFn fun position => bytes.getD position.val 0⟩

def toList (digest : Digest) : Bytes := digest.bytes.toList

/-- The first four bytes as a word, the least significant first. -/
def word (digest : Digest) : UInt32 := (ofBigEndian (digest.toList.take 4).reverse).toUInt32

/-- The first four bytes, which are enough to tell graphs apart in a log. -/
def text (digest : Digest) : String := hex (digest.toList.take 4) ++ "…"

end Digest

end Coverability
