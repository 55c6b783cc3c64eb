import Canvasback.FmtRes
import Canvasback.FmtRes.Aligned
import Canvasback.FmtRes.Ends
import Canvasback.FmtRes.Points
import Canvasback.FmtRes.RoundTrip
import Canvasback.FmtRes.Rows
import Canvasback.FmtRes.Turns
import Canvasback.Lib.CString
import Canvasback.Lib.Chunked
import Canvasback.Lib.Delivery
import Canvasback.Lib.Fallible
import Canvasback.Lib.Grammar
import Canvasback.Lib.Grid
import Canvasback.Lib.Incremental
import Canvasback.Lib.Memory
import Canvasback.Lib.Printf
import Canvasback.Lib.Runs
import Canvasback.Lib.Simulation
import Canvasback.Lib.TwoLevel
import Canvasback.Lib.Wkb
import Canvasback.PicoHttp
import Canvasback.PicoHttp.Complete
import Canvasback.PicoHttp.Pointers
import Canvasback.PicoHttp.Texts
import Canvasback.Picoev
import Canvasback.Picoev.Calls
import Canvasback.Picoev.Echo
import Canvasback.Picoev.Epoll
import Canvasback.Picoev.LoopOnce
import Canvasback.Picoev.Select
import Canvasback.Picoev.Timeouts
import Canvasback.Picoev.Timers
import Canvasback.Records
import Canvasback.Server
import Canvasback.Server.Callbacks
import Canvasback.Server.Database
import Canvasback.Server.Invariant
import Canvasback.Server.Isolation
import Canvasback.Server.OnPicoev
import Canvasback.Server.OsmTypes
import Canvasback.Server.Packets
import Canvasback.Server.Process
import Canvasback.Server.Query
import Canvasback.Server.Response
import Canvasback.Server.ShortWrites
import Canvasback.Server.Sound
import Canvasback.Server.Stories
import Canvasback.Server.Turns
import Canvasback.Styles
import Canvasback.Tile
import Canvasback.Tile.Boxes
import Canvasback.Tile.HighZooms
import Canvasback.TokenLoop
import Canvasback.TokenLoop.Address
import Canvasback.TokenLoop.PathAlone
import Canvasback.TokenLoop.RealTiles
import Canvasback.TokenLoop.Settled
