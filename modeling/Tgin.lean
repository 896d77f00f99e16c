import Tgin.Lib.Ordered
import Tgin.Queue.Order
import Tgin.Breaker.Probes
import Tgin.Limit
import Tgin.Lib.Gcra
import Tgin.Limit.Calendar
import Tgin.Limit.Ledger
import Tgin.Limit.Keyed
import Tgin.BotLimiter
import Tgin.BotLimiter.Quotas
import Tgin.Lib.SmoothWrr
import Tgin.Rules
import Tgin.Rules.Schedule
import Tgin.Rules.Reference
import Tgin.Rules.Compile
import Tgin.Rules.Walk
import Tgin.Rules.Matching
import Tgin.Rules.Route
import Tgin.Config
import Tgin.Engine
import Tgin.Engine.Control
import Tgin.Engine.Sources
import Tgin.Engine.Instances
import Tgin.Engine.Captures
import Tgin.Engine.Feeders
import Tgin.Admission
import Tgin.Admission.AllOrNothing
import Tgin.Admission.Steps
import Tgin.Admission.Refusals
import Tgin.Admission.System
import Tgin.Admission.Accounts
import Tgin.Admission.Retirement
import Tgin.Admission.Shares
import Tgin.Admission.Routes
import Tgin.Admission.Traffic
import Tgin.Admission.Owners
import Tgin.Admission.Isolation
import Tgin.LocalFiles
import Tgin.LocalFiles.Levels
import Tgin.Lib.Kmp
import Tgin.LocalFiles.Delimiter
import Tgin.LocalFiles.Form
import Tgin.LocalFiles.HttpReader
import Tgin.LocalFiles.Multipart
import Tgin.LocalFiles.Scanner
import Tgin.LocalFiles.ScanGuard
import Tgin.Queue.Conservation
import Tgin.Queue.Capacity
import Tgin.Queue.Wakeups
import Tgin.Gateway.Gate
import Tgin.Limit.InOrder
import Tgin.Queue.Holders
import Tgin.PullConsumer
import Tgin.LongPoll
import Tgin.LongPoll.Offsets
import Tgin.LongPoll.Drain
import Tgin.ConfigWatch
import Tgin.Parking
import Tgin.Parking.Steps
import Tgin.Parking.Jobs
import Tgin.Engine.Settings
import Tgin.Admission.Restart
import Tgin.Lib.JsonText
import Tgin.Lib.JsonUnique
import Tgin.Client
import Tgin.LocalFiles.Params
import Tgin.LocalFiles.WellFormed
import Tgin.Limit.Earliest
import Tgin.Queue.Evict
import Tgin.Limit.Register
import Tgin.Limit.Bookings
import Tgin.Limit.Undo
import Tgin.Limit.Alike
import Tgin.BotLimiter.Alone
import Tgin.ClientIp
import Tgin.Supervisor
import Tgin.Supervisor.Lifecycle
import Tgin.Engine.Drain
import Tgin.Gateway.Bots
import Tgin.Gateway.Carried
import Tgin.Replies
import Tgin.Replies.Tokens
import Tgin.Rules.HashChat
import Tgin.Breaker.Serial
import Tgin.Push
import Tgin.Push.Choice
import Tgin.Push.Delivery
import Tgin.Limit.RetryAfter
import Tgin.Gateway.Body
import Tgin.Gateway.Files
import Tgin.Gateway.OwnFiles
import Tgin.Gateway.Prepare
import Tgin.Gateway.Proxy
import Tgin.Gateway.Outcomes
import Tgin.Gateway.Resend
import Tgin.Push.Dispatch
import Tgin.Push.Leases
import Tgin.Gateway.Range
import Tgin.Supervisor.Backoff
import Tgin.Gateway.Paths
import Tgin.Lib.Runs
import Tgin.Lib.Utf8
import Tgin.Secret
import Tgin.Config.Interp
import Tgin.Config.Sensitive
import Tgin.Tracing
import Tgin.Lib.JsonString
import Tgin.UpdateFacts.Unescape
import Tgin.UpdateFacts.Extract
import Tgin.UpdateFacts.Reference
import Tgin.UpdateFacts.Facts
import Tgin.Pull.Params
import Tgin.LocalFiles.Search
import Tgin.Client.Split
import Tgin.Lib.Checked
import Tgin.Config.Raw
import Tgin.Config.Report
import Tgin.Config.HttpPaths
import Tgin.Config.Validate
import Tgin.Config.Valid
import Tgin.Config.Resolve
import Tgin.Config.Resolves
import Tgin.Config.Load
import Tgin.Config.Engine
import Tgin.Config.Routes
import Tgin.Admission.Dealt
import Tgin.Webhook
import Tgin.Webhook.Runs
import Tgin.Engine.Lookups
import Tgin.Lib.Merge
import Tgin.DataServer
import Tgin.DataServer.Runs
import Tgin.Pull.Batch
import Tgin.Gateway.Intercept
import Tgin.Gateway.Dispatch
