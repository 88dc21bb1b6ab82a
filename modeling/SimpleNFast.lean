import SimpleNFast.Proof.Rdb.BucketDeadlock
import SimpleNFast.Proof.Rdb.CloseProtocol
import SimpleNFast.Construction.Rdb.Session
import SimpleNFast.Proof.Rdb.DiskState
import SimpleNFast.Proof.Http.ChunkedSending
import SimpleNFast.Proof.Http.ChunkedRecovery
import SimpleNFast.Construction.Http.Framing
import SimpleNFast.Construction.Json.Lexer
import SimpleNFast.Proof.Http.Serving
import SimpleNFast.Proof.Http.Framing
import SimpleNFast.Construction.Com.WorkQueue
import SimpleNFast.Construction.Http.RequestHead
import SimpleNFast.Construction.Http.Routes
import SimpleNFast.Construction.Json.Documents
import SimpleNFast.Construction.Net.Nio
import SimpleNFast.Construction.Net.Reactor
import SimpleNFast.Proof.Com.WorkQueue
import SimpleNFast.Proof.Http.FieldLines
import SimpleNFast.Proof.Http.HeaderRuns
import SimpleNFast.Proof.Http.RequestHead
import SimpleNFast.Proof.Http.Routing
import SimpleNFast.Proof.Json.Acceptance
import SimpleNFast.Proof.Json.Alignment
import SimpleNFast.Proof.Json.Soundness
import SimpleNFast.Proof.Net.Strings
import SimpleNFast.Proof.Net.ReactorLock
import SimpleNFast.Proof.Rdb.LruOrder
import SimpleNFast.Proof.Rdb.LruRuns
import SimpleNFast.Proof.Rdb.PageBalance
import SimpleNFast.Proof.Rdb.PageMap
import SimpleNFast.Construction.Rdb.FreeDiskPages
import SimpleNFast.Construction.Rdb.PageImage
import SimpleNFast.Proof.Rdb.FreeDiskPages
import SimpleNFast.Proof.Rdb.FreePageFile
import SimpleNFast.Proof.Rdb.PageImage
import SimpleNFast.Proof.Rdb.Prime
import SimpleNFast.Construction.Json.Escapes
import SimpleNFast.Proof.Json.Escaping
import SimpleNFast.Proof.Json.Sequences
import SimpleNFast.Proof.Json.Unescaping
import SimpleNFast.Construction.Json.Layout
import SimpleNFast.Proof.Json.Conversions
import SimpleNFast.Proof.Json.Layout
import SimpleNFast.Proof.Json.Overflow
import SimpleNFast.Proof.Json.RoundTrip
import SimpleNFast.Proof.Json.SingleUnescaping
import SimpleNFast.Proof.Http.SizedBodies
import SimpleNFast.Proof.Http.UriAcceptance
import SimpleNFast.Construction.Http.UriSetters
import SimpleNFast.Construction.Http.UriMerge
import SimpleNFast.Proof.Http.UriDots
import SimpleNFast.Proof.Http.UriResolution
import SimpleNFast.Proof.Http.UriMerging
import SimpleNFast.Proof.Http.UriPrinting
import SimpleNFast.Proof.Http.UriSetters
import SimpleNFast.Construction.Http.UriAccess
import SimpleNFast.Proof.Http.UriAccess
import SimpleNFast.Proof.Http.UriBounds
import SimpleNFast.Proof.Http.UriFailures
import SimpleNFast.Construction.Net.Addresses
import SimpleNFast.Proof.Net.Addresses
import SimpleNFast.Construction.Net.Strings
import SimpleNFast.Construction.Net.Registry
import SimpleNFast.Proof.Net.Registry
import SimpleNFast.Construction.Http.HeaderMap
import SimpleNFast.Proof.Http.HeaderMap
import SimpleNFast.Proof.Http.PathParameters
import SimpleNFast.Proof.Http.FailedRoutes
import SimpleNFast.Construction.Http.ListGrammar
import SimpleNFast.Proof.Http.ListReading
import SimpleNFast.Proof.Http.PrintedValues
import SimpleNFast.Proof.Http.RepeatedLists
import SimpleNFast.Proof.Http.PrintedHosts
import SimpleNFast.Construction.Com.TimeUtil
import SimpleNFast.Construction.Rdb.PagePool
import SimpleNFast.Proof.Com.DateValidation
import SimpleNFast.Proof.Http.PushBack
import SimpleNFast.Proof.Log.Rotation
import SimpleNFast.Proof.Rdb.PagePool
import SimpleNFast.Proof.Net.Transfers
import SimpleNFast.Construction.Com.Clap
import SimpleNFast.Construction.Com.Config
import SimpleNFast.Proof.Com.Clap
import SimpleNFast.Proof.Com.Config
