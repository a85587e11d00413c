import ParticleChain.Bytes
import ParticleChain.Hex
import ParticleChain.Keccak
import ParticleChain.Abi.Reader
import ParticleChain.Word.Division
import ParticleChain.Evm.Opcode
import ParticleChain.Evm.Gas
import ParticleChain.Evm.Stack
import ParticleChain.Evm.Memory
import ParticleChain.Evm.View
import ParticleChain.Evm.Step
import ParticleChain.Evm.Metering
import ParticleChain.Evm.Run
import ParticleChain.Artifact.Definition
import ParticleChain.Node.Fault
import ParticleChain.Sampling.Samples
import ParticleChain.Artifact.Format
import ParticleChain.Artifact.Source
import ParticleChain.Artifact.Validation
import ParticleChain.Composite.Graph
import ParticleChain.Registry.Basic
import ParticleChain.Disk.Basic
import ParticleChain.Config
import ParticleChain.Node.Basic
import ParticleChain.Bootstrap
import ParticleChain.Publishing.Error
import ParticleChain.Publishing.Pipeline
import ParticleChain.Publishing.Replay
import ParticleChain.Sampling.Generate
import ParticleChain.CommandLine
import ParticleChain.Publishing.Turns
import ParticleChain.Disk.Difference
import ParticleChain.Main
import ParticleChain.Proofs.Evm.Actions
import ParticleChain.Proofs.Evm.Primitives
import ParticleChain.Proofs.Evm.Effect
import ParticleChain.Proofs.Evm.Layers
import ParticleChain.Proofs.Word.Carry
import ParticleChain.Proofs.Evm.Opening
import ParticleChain.Proofs.Evm.Runs
import ParticleChain.Proofs.Evm.Termination
import ParticleChain.Proofs.Evm.MemoryBytes
import ParticleChain.Proofs.Evm.Calls
import ParticleChain.Proofs.Evm.Rollback
import ParticleChain.Proofs.Evm.Static
import ParticleChain.Proofs.Evm.Conservation
import ParticleChain.Proofs.Evm.Snapshots
import ParticleChain.Proofs.Evm.Lasting
import ParticleChain.Proofs.Evm.Anchors
import ParticleChain.Proofs.Evm.Remains
import ParticleChain.Proofs.Evm.Evaluation
import ParticleChain.Proofs.Evm.Rebirth
import ParticleChain.Proofs.Evm.Deployed
import ParticleChain.Proofs.Evm.Isolation
import ParticleChain.Proofs.Evm.Grid
import ParticleChain.Proofs.Evm.Checked
import ParticleChain.Proofs.Evm.Accounts
import ParticleChain.Proofs.Evm.Faults
import ParticleChain.Proofs.Evm.Ranges
import ParticleChain.Proofs.Evm.WellFormed
import ParticleChain.Proofs.Evm.Stipends
import ParticleChain.Proofs.Evm.Books
import ParticleChain.Proofs.Evm.Accounting
import ParticleChain.Proofs.Registry.Runs
import ParticleChain.Proofs.Registry.Tables
import ParticleChain.Proofs.Registry.Versions
import ParticleChain.Proofs.Registry.Owners
import ParticleChain.Proofs.Registry.Rollbacks
import ParticleChain.Proofs.Composite.Paths
import ParticleChain.Proofs.Composite.Order
import ParticleChain.Proofs.Registry.Composites
import ParticleChain.Proofs.Registry.References
import ParticleChain.Proofs.Registry.Checks
import ParticleChain.Proofs.Registry.Stored
import ParticleChain.Proofs.Registry.Restart
import ParticleChain.Proofs.Disk.Paths
import ParticleChain.Proofs.Disk.Files
import ParticleChain.Proofs.Publishing.Files
import ParticleChain.Proofs.Publishing.Stages
import ParticleChain.Proofs.Publishing.Failures
import ParticleChain.Proofs.Publishing.Builds
import ParticleChain.Proofs.Publishing.Turns
import ParticleChain.Proofs.Json.Words
import ParticleChain.Proofs.Json.RoundTrip
import ParticleChain.Proofs.Artifact.Format
import ParticleChain.Proofs.Artifact.Validation
import ParticleChain.Proofs.Artifact.Arguments
import ParticleChain.Proofs.Artifact.Sources
import ParticleChain.Proofs.Word.Bytes
import ParticleChain.Proofs.Evm.Creations
import ParticleChain.Proofs.Evm.Shapes
import ParticleChain.Proofs.Evm.InitCode
import ParticleChain.Proofs.Publishing.Published
import ParticleChain.Proofs.Publishing.Agreement
import ParticleChain.Proofs.Publishing.Records
import ParticleChain.Proofs.Publishing.ReplayOrder
import ParticleChain.Proofs.Publishing.Separation
import ParticleChain.Proofs.Word.Digits
import ParticleChain.Proofs.Word.Shifts
import ParticleChain.Proofs.Word.Bits
import ParticleChain.Proofs.Word.Division
import ParticleChain.Proofs.Word.Limbs
import ParticleChain.Proofs.Word.Signed
import ParticleChain.Proofs.Word.Fields
import ParticleChain.Proofs.Word.Powers
import ParticleChain.Proofs.Evm.Operators
import ParticleChain.Proofs.Evm.Readers
import ParticleChain.Proofs.Evm.Preimages
import ParticleChain.Proofs.Abi.Places
import ParticleChain.Proofs.Abi.Safety
import ParticleChain.Proofs.Abi.Words
import ParticleChain.Proofs.Abi.Canonical
import ParticleChain.Proofs.Abi.Layout
import ParticleChain.Proofs.Abi.Items
import ParticleChain.Proofs.Sampling.Samples
