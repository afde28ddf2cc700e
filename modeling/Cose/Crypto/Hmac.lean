import Cose.Crypto.Sha2

namespace Cose.Hash

/-- A key brought to the length of a block: hashed if it is longer, filled up with zeros. -/
def blockKey (hash : Hash) (key : Bytes) : Bytes :=
  let short := if key.length > hash.blockLength then hash.digest key else key
  short ++ List.replicate (hash.blockLength - short.length) 0

def hmac (hash : Hash) (key data : Bytes) : Bytes :=
  let block := hash.blockKey key
  let inner := hash.digest (block.map (· ^^^ 0x36) ++ data)
  hash.digest (block.map (· ^^^ 0x5c) ++ inner)

end Cose.Hash
