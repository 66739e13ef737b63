import HyperDex.General.Machine
import HyperDex.General.Tape
import HyperDex.General.Ledger
import HyperDex.General.PrefixCode
import HyperDex.General.Outcome
import HyperDex.General.Reordering
import HyperDex.General.Lines
import HyperDex.General.ObjectStore
import HyperDex.General.Linearization
import HyperDex.General.Resume
import HyperDex.General.Selection
import HyperDex.Ruby.Value
import HyperDex.Conversion.DataStructures
import HyperDex.Conversion.Convert
import HyperDex.Conversion.PackedFormat
import HyperDex.Conversion.MapAttributes
import HyperDex.Conversion.Predicates
import HyperDex.Conversion.Checks
import HyperDex.Conversion.Acceptance
import HyperDex.Decoding.BuildAttribute
import HyperDex.Decoding.RoundTrip
import HyperDex.Decoding.WriteBack
import HyperDex.Decoding.Records
import HyperDex.Admin.Client
import HyperDex.Admin.Runs
import HyperDex.Admin.Backlog
import HyperDex.Client.Call
import HyperDex.Client.Arguments
import HyperDex.Client.Texts
import HyperDex.Client.Predicates
import HyperDex.Admin.Spaces
import HyperDex.Admin.Coordinator
import HyperDex.Client.World
import HyperDex.Client.Delivery
import HyperDex.Client.Invariant
import HyperDex.Client.Steps
import HyperDex.Client.Reading
import HyperDex.Client.Ownership
import HyperDex.Client.Arrays
import HyperDex.Client.Requests
import HyperDex.Client.Collection
import HyperDex.Client.Search
import HyperDex.Client.Faults
import HyperDex.Client.Messages
import HyperDex.Client.Polling
import HyperDex.Client.Marshalling
import HyperDex.Client.Service
import HyperDex.Client.Refinement
import HyperDex.Client.Reordering
import HyperDex.Client.Progress
import HyperDex.Client.Blocking
import HyperDex.Client.Recovery
import HyperDex.Client.Methods
import HyperDex.Client.Store
import HyperDex.Client.Talk
import HyperDex.Client.Shared
import HyperDex.Client.Queries
import HyperDex.Client.Session
import HyperDex.Client.Gathering
