import WasmHost.Artifact
import WasmHost.CompiledModule
import WasmHost.Config
import WasmHost.Datum
import WasmHost.Datum.Decode
import WasmHost.Datum.Json
import WasmHost.Datum.Toml
import WasmHost.Datum.Toml.Scalar
import WasmHost.Engine
import WasmHost.Error
import WasmHost.FileSystem
import WasmHost.HostOp
import WasmHost.Ieee.Arithmetic
import WasmHost.Ieee.Format
import WasmHost.Ieee.Notation
import WasmHost.Ieee.Shortest
import WasmHost.Import
import WasmHost.Linker
import WasmHost.Linker.Module
import WasmHost.Machine.Call
import WasmHost.Machine.Code
import WasmHost.Machine.Frame
import WasmHost.Machine.Host
import WasmHost.Machine.Instantiate
import WasmHost.Machine.Run
import WasmHost.Memory
import WasmHost.Objects
import WasmHost.Power
import WasmHost.Proofs.Machine.Runs
import WasmHost.Proofs.Machine.Arguments
import WasmHost.Proofs.Machine.Unwinding
import WasmHost.Proofs.World.Extension
import WasmHost.Proofs.World.Objects
import WasmHost.Reference
import WasmHost.Settings
import WasmHost.Settings.Decode
import WasmHost.Settings.Encode
import WasmHost.Settings.File
import WasmHost.Store
import WasmHost.Text.Hex
import WasmHost.Text.Printable
import WasmHost.Text.Quoted
import WasmHost.Text.Utf8
import WasmHost.Trap
import WasmHost.Types
import WasmHost.Value
import WasmHost.Wasi.Context
import WasmHost.Wasi.Functions
import WasmHost.Wasm.Arithmetic
import WasmHost.Wasm.Decode
import WasmHost.Wasm.Encode
import WasmHost.Wasm.Leb
import WasmHost.Wasm.Module
import WasmHost.Wasm.Numeric
import WasmHost.Wasm.Op
import WasmHost.Wasm.Typing
import WasmHost.Wasm.Validate
import WasmHost.Wat.Body
import WasmHost.Wat.Field
import WasmHost.Wat.Literal
import WasmHost.Wat.Module
import WasmHost.Wat.Scope
import WasmHost.Wat.Sexpr
import WasmHost.Wat.Token
import WasmHost.World
import WasmHost.Proofs.World.Changes
import WasmHost.Proofs.Machine.Changes
import WasmHost.Proofs.Linker.Definitions
import WasmHost.Proofs.Linker.Registry
import WasmHost.Proofs.Linker.BulkDefinition
import WasmHost.Proofs.Linker.Changes
import WasmHost.Proofs.Session
import WasmHost.Proofs.Linker.Instantiation
import WasmHost.Proofs.Embedding.Steps
import WasmHost.Proofs.World.Accounts
import WasmHost.Proofs.Machine.Accounts
import WasmHost.Proofs.Embedding.Accounts
import WasmHost.Proofs.Embedding.Fuel
import WasmHost.Proofs.Embedding.Interrupts
import WasmHost.Proofs.References
import WasmHost.Proofs.World.Holdings
import WasmHost.Proofs.World.Slots
import WasmHost.Proofs.Wasm.Partners
import WasmHost.Proofs.Wasm.Validity
import WasmHost.Proofs.Machine.Reach
import WasmHost.Proofs.Machine.Holdings
import WasmHost.Proofs.Embedding.Closures
import WasmHost.Proofs.Embedding.Holdings
import WasmHost.Proofs.Embedding.References
import WasmHost.Proofs.Machine.Escapes
import WasmHost.Proofs.Embedding.Refusals
import WasmHost.Proofs.Wasm.Compiled
import WasmHost.Proofs.World.Untouched
import WasmHost.Proofs.World.Signatures
import WasmHost.Proofs.Linker.Matching
import WasmHost.Proofs.Linker.Signatures
import WasmHost.Proofs.Linker.LinkErrors
import WasmHost.Proofs.Linker.Commands
import WasmHost.Proofs.Linker.Acceptance
import WasmHost.Proofs.World.Boxes
import WasmHost.Proofs.World.Atomicity
import WasmHost.Proofs.World.RoundTrips
import WasmHost.Proofs.Machine.Operands
import WasmHost.Proofs.Machine.HostCalls
import WasmHost.Proofs.Machine.Reads
import WasmHost.Proofs.Machine.Echoes
import WasmHost.Proofs.Crossings
import WasmHost.Proofs.Wasm.Plain
import WasmHost.Proofs.Wasm.Statics
import WasmHost.Proofs.Wasm.TypedCode
import WasmHost.Proofs.World.Typing
import WasmHost.Proofs.World.Constants
import WasmHost.Proofs.World.TypedInstances
import WasmHost.Proofs.Machine.Frames
import WasmHost.Proofs.Machine.Instructions
import WasmHost.Proofs.Machine.Control
import WasmHost.Proofs.World.Exports
import WasmHost.Proofs.Machine.Soundness
import WasmHost.Proofs.Linker.TypedDefinitions
import WasmHost.Proofs.Embedding.Usage
import WasmHost.Proofs.Embedding.HostFunctions
import WasmHost.Proofs.Embedding.ExportViews
import WasmHost.Proofs.Datum.Digits
import WasmHost.Proofs.Datum.JsonText
import WasmHost.Proofs.Datum.CompactText
import WasmHost.Proofs.Datum.Meaning
import WasmHost.Proofs.Datum.RecordMeaning
import WasmHost.Proofs.Datum.TomlText
import WasmHost.Proofs.Datum.TomlDocument
import WasmHost.Proofs.Datum.TomlTables
import WasmHost.Proofs.Datum.TomlLayout
import WasmHost.Proofs.Settings.Members
import WasmHost.Proofs.Settings.RoundTrip
import WasmHost.Proofs.Settings.PartialObjects
import WasmHost.Proofs.Settings.TwoFormats
import WasmHost.Proofs.World.Sharing
import WasmHost.Proofs.Machine.Routes
import WasmHost.Proofs.Machine.Sharing
import WasmHost.Proofs.Embedding.Sharing
import WasmHost.Proofs.Linker.Routes
import WasmHost.Proofs.Machine.Accesses
import WasmHost.Proofs.Embedding.Handles
import WasmHost.Proofs.World.Refuel
import WasmHost.Proofs.Machine.Refuel
import WasmHost.Proofs.Machine.MoreFuel
import WasmHost.Proofs.Machine.FuelFree
import WasmHost.Proofs.Embedding.Consumption
import WasmHost.Proofs.Text.Utf8
import WasmHost.Proofs.Wasm.Threads
import WasmHost.Proofs.Compilation
import WasmHost.Proofs.World.Memories
import WasmHost.Proofs.Embedding.Changes
import WasmHost.Proofs.Embedding.Memories
import WasmHost.Proofs.Wasm.Depth
import WasmHost.Proofs.Machine.Outlines
import WasmHost.Proofs.Machine.Aims
import WasmHost.Proofs.Machine.Suspension
import WasmHost.Proofs.Embedding.Ordering
import WasmHost.Proofs.Machine.Budgets
import WasmHost.Proofs.Machine.Metering
import WasmHost.Proofs.Embedding.FuelBounds
import WasmHost.Proofs.Wasm.Reading
import WasmHost.Proofs.Wasm.Places
import WasmHost.Proofs.Machine.Traces
import WasmHost.Proofs.Embedding.TrapTraces
import WasmHost.Proofs.Wasm.Constants
import WasmHost.Proofs.Wasm.RoundTrip
import WasmHost.Proofs.Wat.Declarations
import WasmHost.Proofs.Wat.Texts
import WasmHost.Proofs.Embedding.Tables
import WasmHost.Proofs.Linker.Reactors
import WasmHost.Proofs.Linker.Isolation
import WasmHost.Proofs.Embedding.Collection
import WasmHost.Proofs.Text.Utf8Faults
import WasmHost.Proofs.Sources
import WasmHost.Proofs.Engine.Setters
import WasmHost.Proofs.Engine.SettingsCalls
import WasmHost.Proofs.Engine.BadSettings
import WasmHost.Proofs.Datum.ListForms
import WasmHost.Proofs.Settings.ListForms
import WasmHost.Proofs.Wasi.Settings
import WasmHost.Proofs.Embedding.Contexts
import WasmHost.Proofs.Embedding.Callers
import WasmHost.Proofs.Artifacts
