import Cose.Bytes
import Cose.Algorithm
import Cose.KeyUsage
import Cose.Error
import Cose.LabelMap
import Cose.LabelMap.Reader
import Cose.Header
import Cose.Content
import Cose.Aad
import Cose.Message
import Cose.Message.Draft
import Cose.Key.Role
import Cose.Key.Fit
import Cose.Key.Draft
import Cose.Key.Description
import Cose.Crypto.Hmac
import Cose.Crypto.Gcm
import Cose.Ecdsa.Signature
import Cose.Ecdsa.Scheme
import Cose.Crypto.Curve25519
import Cose.Session
import Cose.Provider.Software
import Cose.Operation.Signing
import Cose.Operation.Tagging
import Cose.Operation.Encryption
import Cose.Operation.Keys
import Cose.Proofs.Cbor.Grammar
import Cose.Proofs.Cbor.Reading
import Cose.Proofs.Cbor.Items
import Cose.Proofs.LabelMap.Grammar
import Cose.Proofs.LabelMap.Reading
import Cose.Proofs.LabelMap.Writing
import Cose.Proofs.Message.Recipients
import Cose.Proofs.Message.RoundTrip
import Cose.Proofs.Ecdsa.Conversion
import Cose.Proofs.Operation.Selection
import Cose.Proofs.Message.Arrival
import Cose.Proofs.Operation.Verification
import Cose.Proofs.Operation.Nonce
import Cose.Proofs.Operation.Encryption
import Cose.Proofs.Cbor.Exact
import Cose.Proofs.Message.Grammar
import Cose.Proofs.Message.Reading
import Cose.Proofs.Aad.Injectivity
import Cose.Proofs.Operation.Veto
import Cose.Proofs.Operation.NonceRecovery
import Cose.Proofs.Key.WellFormed
import Cose.Proofs.Cbor.Head
import Cose.Proofs.LabelMap.Order
import Cose.Proofs.Key.RoundTrip
import Cose.Proofs.Cbor.Deterministic
import Cose.Proofs.LabelMap.Deterministic
import Cose.Proofs.Message.Contents
import Cose.Proofs.Message.Rewriting
import Cose.Proofs.Key.Fit
import Cose.Proofs.Operation.Calls
import Cose.Proofs.Ecdsa.Sequence
import Cose.Proofs.Operation.Interchange
import Cose.Proofs.Operation.Independence
import Cose.Proofs.Operation.Retention
import Cose.Proofs.Message.Depth
import Cose.Proofs.Message.Production
import Cose.Proofs.Operation.Production
import Cose.Proofs.Cbor.Truncation
import Cose.Proofs.Message.Delimited
import Cose.Proofs.LabelMap.Canonical
import Cose.Proofs.Key.Reading
import Cose.Proofs.Key.Interpretation
import Cose.Proofs.Key.Agreement
import Cose.Proofs.LabelMap.Nesting
import Cose.Proofs.Message.Bound
import Cose.Proofs.Operation.Publication
import Cose.Proofs.Operation.Substitution
import Cose.Proofs.Run
import Cose.Proofs.Key.Usage
import Cose.Proofs.Key.Arrangement
import Cose.Proofs.Operation.PartialNonce
import Cose.Proofs.Message.Filling
import Cose.Proofs.Ecdsa.Strict
import Cose.Proofs.LabelMap.Sorting
import Cose.Proofs.Cbor.Progress
import Cose.Proofs.LabelMap.Progress
import Cose.Proofs.Message.Progress
