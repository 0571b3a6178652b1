import CppLaravel.Lib.Transition
import CppLaravel.Decimal
import CppLaravel.Lib.Find
import CppLaravel.Proofs.Token.Abilities
import CppLaravel.Proofs.Http.Framing
import CppLaravel.Proofs.Http.HeaderViews
import CppLaravel.Proofs.Queue.Retry
import CppLaravel.Proofs.Queue.Lawful
import CppLaravel.Proofs.Queue.Copies
import CppLaravel.Proofs.Queue.Books
import CppLaravel.Proofs.Queue.SingleWorker
import CppLaravel.Proofs.Session.DoubleLogin
import CppLaravel.Proofs.WebSocket.Receive
import CppLaravel.Proofs.WebSocket.Wire
import CppLaravel.Proofs.WebSocket.Parse
import CppLaravel.WebSocket.Codec
import CppLaravel.Proofs.WebSocket.Codec
import CppLaravel.Proofs.WebSocket.Encode
import CppLaravel.WebSocket.Base64
import CppLaravel.Proofs.WebSocket.Base64
import CppLaravel.WebSocket.Rounds
import CppLaravel.Proofs.WebSocket.Chunking
import CppLaravel.Proofs.WebSocket.Bounds
import CppLaravel.Proofs.WebSocket.Replies
import CppLaravel.Lib.Components
import CppLaravel.Proofs.StaticFiles.Containment
import CppLaravel.Proofs.Token.Middleware
import CppLaravel.Livewire.Json
import CppLaravel.Proofs.Livewire.Braces
import CppLaravel.Proofs.Livewire.State
import CppLaravel.Proofs.Livewire.Request
import CppLaravel.Proofs.Livewire.RoundTrip
import CppLaravel.Blade.Render
import CppLaravel.Blade.Template
import CppLaravel.Proofs.Blade.Searches
import CppLaravel.Proofs.Blade.Blocks
import CppLaravel.Proofs.Blade.Meaning
import CppLaravel.Proofs.Blade.TwoRuns
import CppLaravel.Proofs.Blade.Markup
import CppLaravel.Scheduler.LocalTime
import CppLaravel.Scheduler.Schedule
import CppLaravel.Proofs.Scheduler.Stamps
import CppLaravel.Proofs.Scheduler.Daily
import CppLaravel.Scheduler.Lifetimes
import CppLaravel.Proofs.Scheduler.Lifetimes
import CppLaravel.Database.Double
import CppLaravel.Database.Query
import CppLaravel.Database.SqliteConnection
import CppLaravel.Proofs.Database.SqlText
import CppLaravel.Proofs.Database.Documented
import CppLaravel.Proofs.Database.Update
import CppLaravel.Proofs.Database.Insert
import CppLaravel.Migrations.Migrator
import CppLaravel.Proofs.Migrations.History
import CppLaravel.Proofs.Migrations.Bookkeeping
import CppLaravel.Proofs.Migrations.Migrator
import CppLaravel.Container.Container
import CppLaravel.Proofs.Container.Latest
import CppLaravel.Proofs.Container.Context
import CppLaravel.Proofs.Container.Autowire
import CppLaravel.Proofs.Container.Lifetimes
import CppLaravel.Proofs.Session.Purge
import CppLaravel.Lib.Regex
import CppLaravel.Routing.Kernel
import CppLaravel.Proofs.Routing.Handle
import CppLaravel.Proofs.Routing.Compile
import CppLaravel.Proofs.Routing.Template
import CppLaravel.Proofs.Http.Buffering
import CppLaravel.Proofs.Http.DeclaredLength
import CppLaravel.Session.Middleware
import CppLaravel.Proofs.Http.Form
import CppLaravel.Proofs.Session.CsrfToken
import CppLaravel.Session.Requests
import CppLaravel.Proofs.Session.Isolation
import CppLaravel.Http.Response
import CppLaravel.Proofs.Http.Response
import CppLaravel.Proofs.Http.Recased
import CppLaravel.Proofs.Session.HeaderCase
import CppLaravel.Token.PersonalAccessToken
import CppLaravel.Proofs.Token.PersonalAccessToken
import CppLaravel.Proofs.Token.StoredAbilities
import CppLaravel.Database.Repository
import CppLaravel.Proofs.Database.Repository
import CppLaravel.Cache.ArrayCache
import CppLaravel.Lib.FixedWindow
import CppLaravel.Session.Throttle
import CppLaravel.Proofs.Session.Throttle
import CppLaravel.Proofs.Session.ThrottleKeys
import CppLaravel.Lib.Json
import CppLaravel.Lib.CharacterReference
import CppLaravel.Lib.JsonAttribute
import CppLaravel.Livewire.Mount
import CppLaravel.Proofs.Livewire.Mount
import CppLaravel.Proofs.Queue.Pass
import CppLaravel.Proofs.Queue.Released
import CppLaravel.Lib.Cycles
import CppLaravel.Proofs.Blade.Termination
import CppLaravel.Blade.Layout
import CppLaravel.Proofs.Blade.Layouts
import CppLaravel.Proofs.Blade.Extends
import CppLaravel.Database.QueryBuilder
import CppLaravel.Lib.Pages
import CppLaravel.Proofs.Database.Paginate
import CppLaravel.Database.Relations
import CppLaravel.Proofs.Database.Relations
import CppLaravel.Database.Transaction
import CppLaravel.Proofs.Database.Transaction
import CppLaravel.StaticFiles.Serve
import CppLaravel.Proofs.StaticFiles.Ranges
import CppLaravel.Validation.Validator
import CppLaravel.Proofs.Validation.Validate
import CppLaravel.Lib.Growing
import CppLaravel.Queue.ArrayQueue
import CppLaravel.Proofs.Queue.ArrayQueue
import CppLaravel.Proofs.Scheduler.Failing
import CppLaravel.Hash.Pbkdf2
import CppLaravel.Proofs.Hash.Pbkdf2
import CppLaravel.Lib.DotLines
import CppLaravel.Mail.Server
import CppLaravel.Mail.Smtp
import CppLaravel.Proofs.Mail.Smtp
import CppLaravel.Lib.Dom
import CppLaravel.Livewire.Morph
import CppLaravel.Proofs.Livewire.Morph
import CppLaravel.Proofs.Livewire.Origin
import CppLaravel.Proofs.Livewire.Page
import CppLaravel.WebSocket.Hub
import CppLaravel.Proofs.WebSocket.Hub
import CppLaravel.Proofs.Routing.Register
import CppLaravel.Http.HandleClient
import CppLaravel.Proofs.Http.HandleClient
import CppLaravel.CocoWeb.App
import CppLaravel.Proofs.CocoWeb.App
import CppLaravel.Proofs.CocoWeb.Wire
import CppLaravel.Http.Serve
import CppLaravel.Proofs.Http.Serve
