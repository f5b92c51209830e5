import Spinet.Core.Address
import Spinet.Core.Transfer
import Spinet.Core.Starved
import Spinet.Socket.Descriptor
import Spinet.Socket.Untruthful
import Spinet.Timer.Conservation
import Spinet.Timer.StopRequest
import Spinet.Timer.WakeUp
import Spinet.Timer.Order
import Spinet.Timer.Duration
import Spinet.Lifecycle.Overwritten
import Spinet.Lifecycle.Gap
import Spinet.Lifecycle.OneLoop
import Spinet.Lifecycle.Reentry
import Spinet.Lifecycle.WeakExchange
import Spinet.Registry.Lifetime
import Spinet.Registry.Sequential
import Spinet.Registry.Live
import Spinet.Registry.Representation
import Spinet.Shutdown.Kept
import Spinet.Server.Listen
import Spinet.Client.Placement
import Spinet.UserCode.Outside
import Spinet.Registry.Stored
import Spinet.Http.Delivery
import Spinet.Http.Clean
import Spinet.Http.Simple
import Spinet.Echo.Exchange
