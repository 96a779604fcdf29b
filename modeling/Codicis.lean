import Codicis.Core.Uncrossed
import Codicis.Core.PostOnly
import Codicis.Core.ReduceOnly
import Codicis.Feed.Displayed
import Codicis.Engine.Progress
import Codicis.Engine.Storage
import Codicis.Engine.Served
import Codicis.App.OrderReport
import Codicis.Ipc.GoWire
import Codicis.Feed.Wire
import Codicis.Net.HttpConnection
import Codicis.Ipc.EndOfStream
import Codicis.Ipc.Outbox
import Codicis.Ipc.RestingBook
import Codicis.Ipc.CodecStreams
import Codicis.Util.Buffer
import Codicis.Engine.Mirror
import Codicis.Core.Quiescence
import Codicis.Core.Priority
import Codicis.Core.AllOrNone
import Codicis.Core.Fillable
import Codicis.Core.PriceTime
import Codicis.Core.Reservations
import Codicis.Core.Conservation
import Codicis.Core.Rejection
import Codicis.Core.Allotment
import Codicis.Core.Prevention
import Codicis.Core.Outcome
import Codicis.Core.Repricing
import Codicis.Core.Prices
import Codicis.Core.Provenance
import Codicis.Core.Overtaking
import Codicis.Net.HttpFraming
