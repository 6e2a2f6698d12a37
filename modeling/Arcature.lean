import Arcature.Lib.Machine
import Arcature.Lib.Table
import Arcature.Lib.Text
import Arcature.Jobs.Queue
import Arcature.Jobs.Fencing
import Arcature.Crypt.Base64Url
import Arcature.Auth.Plaintext
import Arcature.Auth.Reset.Store
import Arcature.Auth.Reset.SingleUse
import Arcature.Auth.Reset.Armed
import Arcature.Auth.Remember.Store
import Arcature.Auth.Remember.Rotation
import Arcature.Auth.Remember.Lost
import Arcature.Auth.Remember.Grace
import Arcature.Lib.TokenBucket
import Arcature.Routing.RateLimit
import Arcature.Routing.Isolation
import Arcature.Routing.SharedLimit
import Arcature.Lib.Framing
import Arcature.Lib.Net
import Arcature.Auth.Throttle.Buckets
import Arcature.Auth.Throttle.Reference
import Arcature.Auth.Throttle.Sweep
import Arcature.Lib.Percent
import Arcature.Crypt.Signer
import Arcature.Crypt.MacInput
import Arcature.Crypt.Binding
import Arcature.Crypt.RoundTrip
import Arcature.Auth.Verification
import Arcature.Http.ClientIp
import Arcature.Inertia.Selection
import Arcature.Inertia.Together
import Arcature.Inertia.Props
import Arcature.Inertia.Sequential
import Arcature.Inertia.Reload
import Arcature.Inertia.Overlay
import Arcature.Inertia.Pending
import Arcature.Routing.Declaration
import Arcature.Routing.Expansion
import Arcature.Routing.Rendering
import Arcature.Uag.RoutesTs
import Arcature.Http.Redirect
import Arcature.Uag.Readers
import Arcature.Observe.JsonLog
import Arcature.Auth.SessionStore
import Arcature.Auth.Extract
import Arcature.Auth.TwoIdentities
import Arcature.Dx.RequestCache
import Arcature.Lib.Sort
import Arcature.Uag.Schema
import Arcature.Uag.TypeMap
import Arcature.Uag.Codegen
import Arcature.Lib.Decimal
import Arcature.Uag.Validate
import Arcature.Uag.OpenApi
import Arcature.Uag.Described
import Arcature.Dx.ApplicationGraph
import Arcature.Uag.FromGraph
import Arcature.Lib.Double
import Arcature.Lib.Exposition
import Arcature.Lib.OrdMap
import Arcature.Observe.Metrics
import Arcature.Observe.Recorded
import Arcature.Observe.Scrape
import Arcature.Observe.Faithful
import Arcature.Crypt.Canonical
import Arcature.Jobs.WorkerConfig
import Arcature.Lib.Owned
import Arcature.Notifications.Store
import Arcature.Notifications.Receipts
import Arcature.Auth.Subjects
import Arcature.Jobs.Attempts
import Arcature.Notifications.Channels
import Arcature.Notifications.Connected
import Arcature.Cli.Dev.Backend
import Arcature.Cli.Dev.Unchanged
import Arcature.Cli.Dev.Loop
import Arcature.Cli.Dev.Fresh
import Arcature.Inertia.Contracts
import Arcature.Lib.TypeScript
import Arcature.Uag.PagesDts
import Arcature.Inertia.Exposure
import Arcature.Inertia.PageTypes
import Arcature.Lib.Lines
import Arcature.Lib.ModuleTree
import Arcature.Lib.ModuleEdit
import Arcature.Cli.Make.Name
import Arcature.Tokens.Plaintext
import Arcature.Http.Multipart
import Arcature.Lib.Ascii
import Arcature.Storage.Filename
import Arcature.Storage.Path
import Arcature.Storage.Resanitize
import Arcature.Http.Download
import Arcature.Storage.Content
import Arcature.Storage.Upload
import Arcature.Cli.Make.Blueprint
import Arcature.Cli.Make.ModFile
import Arcature.Cli.Make.Generate
import Arcature.Cli.Make.Kept
import Arcature.Cli.Make.Grown
import Arcature.Cli.Make.Written
import Arcature.Cli.Make.Feature
import Arcature.Cli.Make.Runs
import Arcature.Inertia.OnceProps
import Arcature.Inertia.ScriptBody
import Arcature.Dx.ModuleCycles
import Arcature.Http.Vary
import Arcature.Auth.Csrf
import Arcature.Cache.Store
import Arcature.I18n.AcceptLanguage
import Arcature.I18n.Locale
import Arcature.I18n.Negotiate
import Arcature.I18n.Preference
import Arcature.Lib.Calendar
import Arcature.Observe.Timestamp
import Arcature.Auth.Relogin
import Arcature.Http.ErrorMapping
import Arcature.Observe.TraceContext
import Arcature.Jobs.Scheduler
import Arcature.Uag.Conflicts
import Arcature.Uag.TypeText
import Arcature.Uag.Constraints
import Arcature.Cache.Namespace
import Arcature.Cli.Dev.Classify
import Arcature.Cli.Dev.Debounce
import Arcature.Proxy.Service
import Arcature.Database.Query
import Arcature.Inertia.Head
import Arcature.Assets
import Arcature.Lib.FileTree
import Arcature.Templates
import Arcature.Cli.Typegen
import Arcature.Lib.Dotenv
import Arcature.Cli.KeyGenerate
import Arcature.Jobs.Migrate
import Arcature.Jobs.LastError
import Arcature.Cli.Make.Spelling
import Arcature.Cli.Make.Regions
import Arcature.Application.Lifecycle
import Arcature.Crypt.AppKey
import Arcature.Crypt.Encrypter
import Arcature.Jobs.WorkerLoop
import Arcature.Realtime.Registry
import Arcature.Realtime.Shutdown
import Arcature.Cache.Calls
import Arcature.DevProxy.Supervisor
import Arcature.Lib.Feed
import Arcature.Realtime.Endpoint
import Arcature.Realtime.Sse
import Arcature.Realtime.WebSocket
import Arcature.Tokens.Lifetime
import Arcature.Storage.Uploads
import Arcature.Validation.Upload
