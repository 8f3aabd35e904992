import EdpIo.Hset.Map
import EdpIo.Base.ListCalls
import EdpIo.Worker.Memory
import EdpIo.Worker.Convar
import EdpIo.Hset.Items
import EdpIo.Hset.Locks
import EdpIo.Hset.Size
import EdpIo.Base.Deadline
import EdpIo.Worker.Priority
import EdpIo.Worker.Conservation
import EdpIo.Worker.Wakeup
import EdpIo.Worker.Order
import EdpIo.Worker.Yield
import EdpIo.Worker.Drain
import EdpIo.Worker.Share
import EdpIo.Worker.Start
import EdpIo.Worker.Race
import EdpIo.Worker.Pass
import EdpIo.Worker.Atomic
import EdpIo.Worker.Fini
import EdpIo.Worker.Cleanup
import EdpIo.Emitter.Refused
import EdpIo.Emitter.Completion
import EdpIo.Emitter.Pendings
import EdpIo.Emitter.Release
import EdpIo.Sock.Announced
import EdpIo.Sock.Forgotten
import EdpIo.Sock.Once
import EdpIo.Sock.Listed
import EdpIo.Sock.Next
import EdpIo.Sock.Sent
import EdpIo.Sock.Stall
import EdpIo.Sock.Abandoned
import EdpIo.Net.Create
import EdpIo.Net.Registration
import EdpIo.Net.Equipped
import EdpIo.Net.Destroy
import EdpIo.Eio.Registry
import EdpIo.Eio.Linked
import EdpIo.Eio.Loop
import EdpIo.Eio.Init
import EdpIo.Eio.Lightload
import EdpIo.Serv.Accept
import EdpIo.Serv.Failures
import EdpIo.Evcache.Shutdown
import EdpIo.Serv.Life
import EdpIo.Emitter.Master
import EdpIo.Edp.Model
import EdpIo.Edp.Account
import EdpIo.Base.Logger
import EdpIo.Sock.Memory
