import LatticeSuite.Bytes
import LatticeSuite.Cipher.Aes256
import LatticeSuite.Cipher.ChaCha20
import LatticeSuite.Cipher.Keystream
import LatticeSuite.Cipher.Poly1305
import LatticeSuite.Cipher.Quad
import LatticeSuite.Cipher.Salsa20
import LatticeSuite.Cipher.Sealed
import LatticeSuite.Coding.Bits
import LatticeSuite.Coding.Coder
import LatticeSuite.Coding.Envelope
import LatticeSuite.Coding.Error
import LatticeSuite.Coding.Huffman.Canonical
import LatticeSuite.Coding.Huffman.Table
import LatticeSuite.Coding.Huffman.Tree
import LatticeSuite.Coding.Kind
import LatticeSuite.Coding.RangeCoder
import LatticeSuite.Coding.RunCoder
import LatticeSuite.Coding.RunLength
import LatticeSuite.Context.Basic
import LatticeSuite.Context.Call
import LatticeSuite.Context.Create
import LatticeSuite.Context.Error
import LatticeSuite.Context.ErrorStack
import LatticeSuite.Context.Keys
import LatticeSuite.Context.Log
import LatticeSuite.Context.Operations
import LatticeSuite.Context.Padding
import LatticeSuite.Context.State
import LatticeSuite.Context.Statistics
import LatticeSuite.Decimal
import LatticeSuite.Digest.Algorithm
import LatticeSuite.Digest.Blake2b
import LatticeSuite.Digest.Hasher
import LatticeSuite.Digest.Hkdf
import LatticeSuite.Digest.Keccak
import LatticeSuite.Digest.Sha2
import LatticeSuite.Digest.Whirlpool
import LatticeSuite.Flags.Error
import LatticeSuite.Flags.Features
import LatticeSuite.Flags.Layout
import LatticeSuite.Flags.Resolve
import LatticeSuite.Hex
import LatticeSuite.Key
import LatticeSuite.Lattice.Packing
import LatticeSuite.Lattice.Poly
import LatticeSuite.Lattice.Transform
import LatticeSuite.MlDsa.Encoding
import LatticeSuite.MlDsa.Parameters
import LatticeSuite.MlDsa.Rounding
import LatticeSuite.MlDsa.Sampling
import LatticeSuite.MlDsa.Signing
import LatticeSuite.MlKem.Encoding
import LatticeSuite.MlKem.Encryption
import LatticeSuite.MlKem.Kem
import LatticeSuite.MlKem.Parameters
import LatticeSuite.MlKem.Sampling
import LatticeSuite.Proofs.Bytes
import LatticeSuite.Proofs.Checked.Basic
import LatticeSuite.Proofs.Checked.Envelope
import LatticeSuite.Proofs.Checked.Huffman
import LatticeSuite.Proofs.Checked.RangeDecoder
import LatticeSuite.Proofs.Checked.Runs
import LatticeSuite.Proofs.Cipher.Keystream
import LatticeSuite.Proofs.Coding.Amplification
import LatticeSuite.Proofs.Coding.Carry
import LatticeSuite.Proofs.Coding.Decisions
import LatticeSuite.Proofs.Coding.Envelope
import LatticeSuite.Proofs.Coding.Interval
import LatticeSuite.Proofs.Coding.Leftover
import LatticeSuite.Proofs.Coding.Lockstep
import LatticeSuite.Proofs.Coding.Packing
import LatticeSuite.Proofs.Coding.Runs
import LatticeSuite.Proofs.Coding.Sum
import LatticeSuite.Proofs.Context.Accounting
import LatticeSuite.Proofs.Context.Atomic
import LatticeSuite.Proofs.Context.BuiltIn
import LatticeSuite.Proofs.Context.Decryption
import LatticeSuite.Proofs.Context.Effects
import LatticeSuite.Proofs.Context.Encryption
import LatticeSuite.Proofs.Context.Exchange
import LatticeSuite.Proofs.Context.Frame
import LatticeSuite.Proofs.Context.Gates
import LatticeSuite.Proofs.Context.KeySlots
import LatticeSuite.Proofs.Context.Lifecycle
import LatticeSuite.Proofs.Context.Omissions
import LatticeSuite.Proofs.Context.Padding
import LatticeSuite.Proofs.Context.Runs
import LatticeSuite.Proofs.Context.Signing
import LatticeSuite.Proofs.Context.States
import LatticeSuite.Proofs.Context.Steps
import LatticeSuite.Proofs.Context.Tally
import LatticeSuite.Proofs.Context.Transfer
import LatticeSuite.Proofs.Context.Verbosity
import LatticeSuite.Proofs.Context.Verification
import LatticeSuite.Proofs.Digest.Length
import LatticeSuite.Proofs.Flags.Features
import LatticeSuite.Proofs.Flags.Layout
import LatticeSuite.Proofs.Flags.Reserved
import LatticeSuite.Proofs.Flags.Resolve
import LatticeSuite.Proofs.Huffman.Canonical
import LatticeSuite.Proofs.Huffman.Depth
import LatticeSuite.Proofs.Huffman.Forest
import LatticeSuite.Proofs.Huffman.Formats
import LatticeSuite.Proofs.Huffman.Kraft
import LatticeSuite.Proofs.Huffman.Lengths
import LatticeSuite.Proofs.Huffman.Optimal
import LatticeSuite.Proofs.Huffman.Table
import LatticeSuite.Proofs.Huffman.Words
import LatticeSuite.Proofs.Lattice.Packing
import LatticeSuite.Proofs.Lattice.Whole
import LatticeSuite.Proofs.MlDsa.Length
import LatticeSuite.Proofs.MlKem.Encoding
import LatticeSuite.Proofs.MlKem.Length
import LatticeSuite.Proofs.MlKem.Recovery
import LatticeSuite.Proofs.Random.Chronicle
import LatticeSuite.Proofs.Random.Counter
import LatticeSuite.Proofs.Random.CtrDrbg
import LatticeSuite.Proofs.Random.Draws
import LatticeSuite.Proofs.Random.HashDrbg
import LatticeSuite.Proofs.Random.History
import LatticeSuite.Proofs.Random.Kiss64
import LatticeSuite.Proofs.Random.Output
import LatticeSuite.Proofs.Random.Period
import LatticeSuite.Proofs.Random.Splitting
import LatticeSuite.Proofs.Random.Units
import LatticeSuite.Proofs.Scheme.BuiltIn
import LatticeSuite.Proofs.Scheme.Discretion
import LatticeSuite.Proofs.Scheme.Hybrid
import LatticeSuite.Proofs.Scheme.Kyber
import LatticeSuite.Proofs.Scheme.Opening
import LatticeSuite.Proofs.Scheme.Registry
import LatticeSuite.Random.Counter
import LatticeSuite.Random.Csprng
import LatticeSuite.Random.CtrDrbg
import LatticeSuite.Random.Draw
import LatticeSuite.Random.Entropy
import LatticeSuite.Random.Error
import LatticeSuite.Random.Generator
import LatticeSuite.Random.HashDrbg
import LatticeSuite.Random.Isaac64
import LatticeSuite.Random.Kiss64
import LatticeSuite.Random.Request
import LatticeSuite.Random.Seed
import LatticeSuite.Random.Stream
import LatticeSuite.Random.Words
import LatticeSuite.Scheme.Backend
import LatticeSuite.Scheme.Config
import LatticeSuite.Scheme.Descriptor
import LatticeSuite.Scheme.Dilithium
import LatticeSuite.Scheme.Error
import LatticeSuite.Scheme.Id
import LatticeSuite.Scheme.Kyber
import LatticeSuite.Scheme.KyberHybrid
import LatticeSuite.Scheme.Machine
import LatticeSuite.Scheme.Operation
import LatticeSuite.Scheme.Registry
import LatticeSuite.Version
