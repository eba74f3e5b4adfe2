import Synapi.Library.CountedLoop
import Synapi.Library.Runs
import Synapi.Library.SlotTable
import Synapi.Library.CharArray
import Synapi.Library.Text
import Synapi.Library.FormEncoding
import Synapi.ApiKey
import Synapi.RequestText
import Synapi.Tables
import Synapi.Requests
import Synapi.Perform
import Synapi.Calls
import Synapi.Invariant
import Synapi.Effects
import Synapi.Steps
import Synapi.Reachable
import Synapi.History
import Synapi.KeyGate
import Synapi.Chunks
import Synapi.Registrations
import Synapi.Accounts
import Synapi.PoolBound
import Synapi.QueueOrder
import Synapi.Lifecycle
import Synapi.QueryRoundTrip
import Synapi.Extension
import Synapi.HandleLifetime
import Synapi.Library.Sessions
import Synapi.Library.Ledger
import Synapi.PlayerProtocol
import Synapi.QueryBuffer
import Synapi.StringFields
import Synapi.Pending
import Synapi.UrlPairing
import Synapi.Rejection
import Synapi.FailedSends
import Synapi.PerformSpec
import Synapi.Drain
import Synapi.SharedCounter
import Synapi.Ownership
import Synapi.KeyCopy
import Synapi.Restart
import Synapi.CleanKey
import Synapi.FrameWait
import Synapi.KeyHandout
import Synapi.LongQueries
import Synapi.RequestUrl
import Synapi.Library.Lockstep
import Synapi.LocalCounter
import Synapi.CounterRefinement
import Synapi.HttpRequest
import Synapi.Delivery
import Synapi.Session
import Synapi.SessionRequests
import Synapi.Directory
import Synapi.Roster
import Synapi.Waiting
import Synapi.Escape
import Synapi.Library.Utf8
import Synapi.PluginMemory
import Synapi.Isolation
import Synapi.Library.Outbox
import Synapi.Outbox
import Synapi.Sample
import Synapi.CurlList
import Synapi.CurlMulti
import Synapi.CurlMultiSpec
import Synapi.CurlRun
import Synapi.CurlMessage
import Synapi.CurlRelease
