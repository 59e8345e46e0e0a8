import AnvilReth.State.History
import AnvilReth.Rpc.Views
import AnvilReth.Rpc.RoundTrip
import AnvilReth.Rpc.AllOrNothing
import AnvilReth.Rpc.Concurrent
import AnvilReth.Time.Chain
import AnvilReth.Evm.NextBlock
import AnvilReth.Impersonation.Attribution
import AnvilReth.Mining.Triggers
import AnvilReth.Mining.Automine
import AnvilReth.Time.Log
import AnvilReth.Sync.Cells
import AnvilReth.Time.Locks
import AnvilReth.Impersonation.Overlap
import AnvilReth.Mining.Switch
import AnvilReth.Rpc.LoadFrame
import AnvilReth.Mining.Mine
import AnvilReth.Mining.Interval
import AnvilReth.Mining.Leftover
import AnvilReth.Mining.Spacing
import AnvilReth.Rpc.Narrowing
import AnvilReth.Mining.Drain
import AnvilReth.Time.WallClock
import AnvilReth.Time.Attempts
import AnvilReth.Rpc.Erc20
import AnvilReth.Mining.IntervalTask
import AnvilReth.State.Containers
import AnvilReth.State.ReadPaths
import AnvilReth.Impersonation.Stale
import AnvilReth.Mining.Detailed
import AnvilReth.Transition.Tally
import AnvilReth.Sync.Watch
import AnvilReth.Mining.IntervalProgress
import AnvilReth.Transition.Simulation
import AnvilReth.Mining.Control
import AnvilReth.Impersonation.Execution
import AnvilReth.Mining.Ledger
import AnvilReth.Rpc.Erc20Ledger
import AnvilReth.Mining.Stream
import AnvilReth.Rpc.Rollback
import AnvilReth.Rpc.Info
import AnvilReth.Evm.Production
import AnvilReth.Rpc.Reads
import AnvilReth.Rpc.Snapshot
import AnvilReth.Evm.Timestamps
import AnvilReth.Rpc.Erc20Search
import AnvilReth.Rpc.Loading
import AnvilReth.Time.Rising
