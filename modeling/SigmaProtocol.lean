import SigmaProtocol.Bytes
import SigmaProtocol.Bytes.Hex
import SigmaProtocol.Bytes.Limbs
import SigmaProtocol.Bytes.Range
import SigmaProtocol.Challenge
import SigmaProtocol.Curve.Binary
import SigmaProtocol.Curve.BinaryField
import SigmaProtocol.Curve.Params
import SigmaProtocol.Curve.Point
import SigmaProtocol.Curve.Prime
import SigmaProtocol.Curve.Table
import SigmaProtocol.DamgardJurik
import SigmaProtocol.DiscreteLog
import SigmaProtocol.EncryptedZero.Protocol
import SigmaProtocol.EncryptedZero.Statement
import SigmaProtocol.Error
import SigmaProtocol.Exchange
import SigmaProtocol.Group.Basic
import SigmaProtocol.Group.Binary
import SigmaProtocol.Group.Secp256k1
import SigmaProtocol.Json.Basic
import SigmaProtocol.Json.Format
import SigmaProtocol.Json.Lexer
import SigmaProtocol.Json.Reader
import SigmaProtocol.Json.Writer
import SigmaProtocol.Modular
import SigmaProtocol.ObliviousTransfer
import SigmaProtocol.Params
import SigmaProtocol.Prover
import SigmaProtocol.Random
import SigmaProtocol.Shake256
import SigmaProtocol.Transcript
import SigmaProtocol.Verifier
import SigmaProtocol.Proofs.Curve.Polynomial
import SigmaProtocol.Proofs.Curve.Residue
import SigmaProtocol.Proofs.Curve.Embedding
import SigmaProtocol.Proofs.Curve.Division
import SigmaProtocol.Proofs.Curve.Product
import SigmaProtocol.Proofs.Curve.Inverse
import SigmaProtocol.Proofs.Curve.Euclid
import SigmaProtocol.Proofs.Curve.Points
import SigmaProtocol.Proofs.Curve.Weierstrass
import SigmaProtocol.Proofs.Curve.Binary
import SigmaProtocol.Proofs.Curve.Prime
import SigmaProtocol.Proofs.Curve.Secp256k1
import SigmaProtocol.Proofs.Group.Coordinates
import SigmaProtocol.Proofs.Group.Encoding
import SigmaProtocol.Proofs.Limbs
import SigmaProtocol.Proofs.Json.Tokens
import SigmaProtocol.Proofs.Json.Text
import SigmaProtocol.Proofs.Json.RoundTrip
import SigmaProtocol.Proofs.Group.Lawful
import SigmaProtocol.Proofs.Group.Closure
import SigmaProtocol.Proofs.Group.Membership
import SigmaProtocol.Proofs.Group.Powers
import SigmaProtocol.Proofs.Challenge
import SigmaProtocol.Proofs.Modular.Units
import SigmaProtocol.Proofs.DamgardJurik
import SigmaProtocol.Proofs.Run
import SigmaProtocol.Proofs.Trace
import SigmaProtocol.Proofs.Completeness
import SigmaProtocol.Proofs.Transcripts
import SigmaProtocol.Proofs.DiscreteLog.Roles
import SigmaProtocol.Proofs.DiscreteLog.Completeness
import SigmaProtocol.Proofs.DiscreteLog.Soundness
import SigmaProtocol.Proofs.DiscreteLog.Transcripts
import SigmaProtocol.Proofs.DiscreteLog.Uniqueness
import SigmaProtocol.Proofs.EncryptedZero.Roles
import SigmaProtocol.Proofs.EncryptedZero.Completeness
import SigmaProtocol.Proofs.EncryptedZero.Soundness
import SigmaProtocol.Proofs.EncryptedZero.Transcripts
import SigmaProtocol.Proofs.EncryptedZero.Uniqueness
import SigmaProtocol.Proofs.Nonces
import SigmaProtocol.Proofs.Verifier
import SigmaProtocol.Proofs.Binding
import SigmaProtocol.Proofs.Outcome
import SigmaProtocol.Proofs.Refusals
import SigmaProtocol.Proofs.FiatShamir.Field
import SigmaProtocol.Proofs.FiatShamir.Binding
import SigmaProtocol.Proofs.FiatShamir.RawBytes
import SigmaProtocol.Proofs.Curve.Checks
import SigmaProtocol.Proofs.Curve.Numeral
import SigmaProtocol.Proofs.Curve.Table
import SigmaProtocol.Proofs.DiscreteLog.Limit
import SigmaProtocol.Proofs.Sampling.Challenges
import SigmaProtocol.Proofs.Sampling.Units
import SigmaProtocol.Proofs.Limbs.Widths
import SigmaProtocol.Proofs.Curve.SquareRoot
import SigmaProtocol.Proofs.Group.HiddenBytes
import SigmaProtocol.Proofs.ObliviousTransfer
import SigmaProtocol.Proofs.Overflow
