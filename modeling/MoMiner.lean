import MoMiner.Autolykos2.Prehash
import MoMiner.Autolykos2.Remainder
import MoMiner.Autolykos2.Rows
import MoMiner.Autolykos2.Search
import MoMiner.Beamhash3.Target
import MoMiner.C29.Cycle
import MoMiner.C29.Dense
import MoMiner.C29.Graph
import MoMiner.C29.Results
import MoMiner.C29.Solutions
import MoMiner.C29.Trim
import MoMiner.C29.Trimming
import MoMiner.C30.Host
import MoMiner.C30.Trim
import MoMiner.C30.Trimming
import MoMiner.C30.Verify
import MoMiner.Controller.ControlCore
import MoMiner.Controller.Reports
import MoMiner.Controller.Stdin
import MoMiner.Controller.Stdout
import MoMiner.Controller.Workers
import MoMiner.Equihash.Buckets
import MoMiner.Equihash.CheckedJoins
import MoMiner.Equihash.Compression
import MoMiner.Equihash.Finalisation
import MoMiner.Equihash.Hash
import MoMiner.Equihash.Kernel
import MoMiner.Equihash.Order
import MoMiner.Equihash.Proof
import MoMiner.Equihash.Provenance
import MoMiner.Equihash.Records
import MoMiner.Equihash.Rounds
import MoMiner.Equihash.Session
import MoMiner.Equihash.Splices
import MoMiner.Etchash.Keccak
import MoMiner.FishHash.Items
import MoMiner.FishHash.Search
import MoMiner.FishHash.Team
import MoMiner.Js.CodeUnits
import MoMiner.Js.DecimalText
import MoMiner.Js.JsonText
import MoMiner.Js.NumberText
import MoMiner.Js.Text
import MoMiner.Js.Value
import MoMiner.Lib.Bins
import MoMiner.Lib.BitString
import MoMiner.Lib.BitWriter
import MoMiner.Lib.BlockHash
import MoMiner.Lib.BlockTrees
import MoMiner.Lib.Blocks
import MoMiner.Lib.Bytes
import MoMiner.Lib.Chains
import MoMiner.Lib.CycleComplete
import MoMiner.Lib.CycleSearch
import MoMiner.Lib.Fallible
import MoMiner.Lib.Fragments
import MoMiner.Lib.InsertionMap
import MoMiner.Lib.Keccak
import MoMiner.Lib.Lanes
import MoMiner.Lib.Layouts
import MoMiner.Lib.LeftTree
import MoMiner.Lib.LimbArray
import MoMiner.Lib.Limbs
import MoMiner.Lib.Lines
import MoMiner.Lib.Links
import MoMiner.Lib.LongDivision
import MoMiner.Lib.Mask
import MoMiner.Lib.Masking
import MoMiner.Lib.Opening
import MoMiner.Lib.PackedFields
import MoMiner.Lib.PackedWords
import MoMiner.Lib.PairList
import MoMiner.Lib.Planes
import MoMiner.Lib.PrimeCertificate
import MoMiner.Lib.ProbeTable
import MoMiner.Lib.ProductTree
import MoMiner.Lib.Progression
import MoMiner.Lib.Radix
import MoMiner.Lib.Reciprocal
import MoMiner.Lib.Run
import MoMiner.Lib.Scatter
import MoMiner.Lib.Stores
import MoMiner.Lib.Survivors
import MoMiner.Lib.Tasks
import MoMiner.Lib.Tours
import MoMiner.Miner.Assignment
import MoMiner.Miner.Autotune
import MoMiner.Miner.Checked
import MoMiner.Miner.CpuDevices
import MoMiner.Miner.Devices
import MoMiner.Miner.Dispatch
import MoMiner.Miner.Environment
import MoMiner.Miner.Grammar
import MoMiner.Miner.JobFields
import MoMiner.Miner.PearlResume
import MoMiner.Miner.PearlSeed
import MoMiner.Miner.PearlShape
import MoMiner.Miner.Printed
import MoMiner.Miner.RoundTrip
import MoMiner.Miner.Selection
import MoMiner.Miner.Tuning
import MoMiner.Native.Accepted
import MoMiner.Native.AsyncWorker
import MoMiner.Native.Commands
import MoMiner.Native.Core
import MoMiner.Native.CpuScheduling
import MoMiner.Native.Job
import MoMiner.Native.JobBoundary
import MoMiner.Native.Msr
import MoMiner.Native.Numerals
import MoMiner.Native.Partition
import MoMiner.Native.Protected
import MoMiner.Native.Search
import MoMiner.Native.Start
import MoMiner.Nexapow.BatchInversion
import MoMiner.Nexapow.Group
import MoMiner.Nexapow.Inverse
import MoMiner.Nexapow.Montgomery
import MoMiner.Nexapow.Portable
import MoMiner.Nexapow.Prime
import MoMiner.Nexapow.Product
import MoMiner.Nexapow.Reduction
import MoMiner.Nexapow.Reference
import MoMiner.Nexapow.Residue
import MoMiner.Nexapow.Words
import MoMiner.Octopus.Evaluation
import MoMiner.Octopus.Polynomial
import MoMiner.Pearl.Blake3
import MoMiner.Pearl.Layers
import MoMiner.Pearl.MergeRoot
import MoMiner.Pearl.Noise
import MoMiner.Pearl.PlainProof
import MoMiner.Pearl.Stream
import MoMiner.Pool.Adapters
import MoMiner.Pool.Connection
import MoMiner.Pool.Controls
import MoMiner.Pool.Decimals
import MoMiner.Pool.Decode
import MoMiner.Pool.Frame
import MoMiner.Pool.Framing
import MoMiner.Pool.Isolation
import MoMiner.Pool.Jobs
import MoMiner.Pool.Messages
import MoMiner.Pool.Native
import MoMiner.Pool.Precise
import MoMiner.Pool.Redaction
import MoMiner.Pool.Settings
import MoMiner.Pool.Shares
import MoMiner.Pool.State
import MoMiner.Pool.Targets
import MoMiner.Pool.Thresholds
import MoMiner.Sycl.FastMod
import MoMiner.Verthash.Sha256
import MoMiner.WalaHash.Calls
import MoMiner.WalaHash.Esimd
import MoMiner.WalaHash.Fused
import MoMiner.WalaHash.Hash
import MoMiner.WalaHash.Sha3
import MoMiner.WalaHash.Wmma
import MoMiner.Xelis.Division
import MoMiner.Xelis.Power
import MoMiner.Xelis.Selector
import MoMiner.Xelis.Walk
