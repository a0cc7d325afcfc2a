import Elfupspeed.Lib.Mealy
import Elfupspeed.Lib.Round
import Elfupspeed.Lib.Exit
import Elfupspeed.Lib.Moves
import Elfupspeed.Lib.Stream
import Elfupspeed.Lib.Assign
import Elfupspeed.Lib.CString
import Elfupspeed.Lib.Cursor
import Elfupspeed.Lib.Decimal
import Elfupspeed.Lib.Numeral
import Elfupspeed.Lib.Scan
import Elfupspeed.Lib.Lines
import Elfupspeed.Lib.Memory
import Elfupspeed.Lib.Epoll
import Elfupspeed.Lib.Descriptors
import Elfupspeed.Src.Speed
import Elfupspeed.Src.Elfinject
import Elfupspeed.Src.ServerClient
import Elfupspeed.Src.ElfIPCServer
import Elfupspeed.Src.Buffers
import Elfupspeed.Src.Connection
import Elfupspeed.Src.EpollServer
import Elfupspeed.Src.Client
import Elfupspeed.Src.ClientSocket
import Elfupspeed.Src.Sockets
import Elfupspeed.Src.ElfTransaction
import Elfupspeed.Src.Service
import Elfupspeed.Src.Launcher
import Elfupspeed.Src.TestClient
import Elfupspeed.Src.Startup
import Elfupspeed.Spec.VirtualClock
import Elfupspeed.Spec.Convention
import Elfupspeed.Spec.Moments
import Elfupspeed.Spec.Room
import Elfupspeed.Spec.Maps
import Elfupspeed.Proofs.Accumulator
import Elfupspeed.Proofs.Forward
import Elfupspeed.Proofs.Identity
import Elfupspeed.Proofs.ClockIds
import Elfupspeed.Proofs.Drift
import Elfupspeed.Proofs.WallClock
import Elfupspeed.Proofs.Hooks
import Elfupspeed.Proofs.Scale
import Elfupspeed.Proofs.Range
import Elfupspeed.Proofs.RemoteCopy
import Elfupspeed.Proofs.RemoteCall
import Elfupspeed.Proofs.Marshalling
import Elfupspeed.Proofs.Returned
import Elfupspeed.Proofs.Injection
import Elfupspeed.Proofs.Exits
import Elfupspeed.Proofs.Moments
import Elfupspeed.Proofs.Signals
import Elfupspeed.Proofs.ModuleBase
import Elfupspeed.Proofs.Entries
import Elfupspeed.Proofs.Scratch
import Elfupspeed.Proofs.Delivery
import Elfupspeed.Proofs.Pids
import Elfupspeed.Proofs.Requests
import Elfupspeed.Proofs.Survival
import Elfupspeed.Proofs.Buffers
import Elfupspeed.Proofs.Echo
import Elfupspeed.Proofs.Clients
import Elfupspeed.Proofs.Pending
import Elfupspeed.Proofs.Broadcast
import Elfupspeed.Proofs.Frames
import Elfupspeed.Proofs.Ownership
import Elfupspeed.Proofs.Reaction
import Elfupspeed.Proofs.PartialCopy
import Elfupspeed.Proofs.Itoa
import Elfupspeed.Proofs.Sockets
import Elfupspeed.Proofs.ElfTransaction
import Elfupspeed.Proofs.Service
import Elfupspeed.Proofs.Waiting
import Elfupspeed.Proofs.Schedule
import Elfupspeed.Proofs.Build
import Elfupspeed.Proofs.Effect
import Elfupspeed.Proofs.Conversation
import Elfupspeed.Proofs.Elsewhere
import Elfupspeed.Proofs.Launcher
import Elfupspeed.Proofs.TestClient
import Elfupspeed.Proofs.Startup
import Elfupspeed.Proofs.Reached
import Elfupspeed.Proofs.Installed
import Elfupspeed.Proofs.Entered
import Elfupspeed.Proofs.Through
import Elfupspeed.Proofs.Replaced
