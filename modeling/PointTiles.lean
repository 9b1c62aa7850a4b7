import PointTiles.Addon
import PointTiles.Dataset
import PointTiles.Hierarchy.Shared
import PointTiles.Hierarchy.Words
import PointTiles.InPlace
import PointTiles.Key.Words
import PointTiles.Load.Rounds
import PointTiles.Load.Roster
import PointTiles.Load.Site
import PointTiles.PointTable
import PointTiles.PointTable.Words
import PointTiles.Pool.Config
import PointTiles.Pool.History
import PointTiles.Pool.Lifecycle
import PointTiles.Pool.Monitor
import PointTiles.Selection
import PointTiles.Proofs.Bisection
import PointTiles.Proofs.Cells
import PointTiles.Proofs.Descent
import PointTiles.Proofs.Faces
import PointTiles.Proofs.KeyOrder
import PointTiles.Proofs.KeyText
import PointTiles.Proofs.Json.NameOrder
import PointTiles.Proofs.Page.Names
import PointTiles.Proofs.Merging
import PointTiles.Proofs.Hierarchy.Contents
import PointTiles.Proofs.Hierarchy.Refinement
import PointTiles.Proofs.Hierarchy.PageEffect
import PointTiles.Proofs.Hierarchy.MergedPage
import PointTiles.Proofs.Packing
import PointTiles.Proofs.Opening
import PointTiles.Proofs.Selection
import PointTiles.Proofs.Depths
import PointTiles.Proofs.Exact
import PointTiles.Proofs.Tiling
import PointTiles.Proofs.Pruning
import PointTiles.Proofs.Overlap
import PointTiles.Proofs.Registration
import PointTiles.Proofs.FirstEntries
import PointTiles.Proofs.Table.Ranges
import PointTiles.Proofs.Table.Writing
import PointTiles.Proofs.Table.Viewing
import PointTiles.Proofs.Table.Bounds
import PointTiles.Proofs.Pool.Step
import PointTiles.Proofs.Pool.Moves
import PointTiles.Proofs.Pool.Backlog
import PointTiles.Proofs.Pool.Ledger
import PointTiles.Proofs.Pool.Threads
import PointTiles.Proofs.Pool.Wakeups
import PointTiles.Proofs.Pool.Progress
import PointTiles.Proofs.Pool.Barrier
import PointTiles.Proofs.Pool.Settling
import PointTiles.Proofs.Pool.Owner
import PointTiles.Proofs.Pool.Calls
import PointTiles.Proofs.Pool.Lifecycle
import PointTiles.Proofs.Pool.Errors
import PointTiles.Proofs.Load.Pages
import PointTiles.Proofs.Load.Docket
import PointTiles.Proofs.Load.Sound
import PointTiles.Proofs.Load.Ending
import PointTiles.Proofs.Load.Fetching
import PointTiles.Proofs.Load.Messages
import PointTiles.Proofs.Load.Failures
import PointTiles.Proofs.Load.Writing
import PointTiles.Proofs.Load.Outcome
import PointTiles.Proofs.Load.Rounds
import PointTiles.Proofs.Load.OneWorker
import PointTiles.Proofs.Load.Guests
import PointTiles.Proofs.Load.Shared
import PointTiles.Proofs.Load.Stored
