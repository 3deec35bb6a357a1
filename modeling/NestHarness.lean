import NestHarness.Lib.Calendar
import NestHarness.Lib.Json
import NestHarness.Lib.Js
import NestHarness.Lib.Binary
import NestHarness.Lib.Text
import NestHarness.Lib.Number
import NestHarness.Lib.Blocks
import NestHarness.Lib.ParentPath
import NestHarness.Lib.Prog
import NestHarness.Lib.Run
import NestHarness.Lib.Txn
import NestHarness.Lib.TxnRuns
import NestHarness.Lib.TxnSerial
import NestHarness.Lib.Wp
import NestHarness.Lib.MySqlColumn
import NestHarness.User.Crypto
import NestHarness.User.Entities
import NestHarness.User.Database
import NestHarness.User.Repository
import NestHarness.User.Service
import NestHarness.User.ServiceRuns
import NestHarness.User.Invariant
import NestHarness.User.Exchange
import NestHarness.User.Accounts
import NestHarness.Http.Exchange
import NestHarness.User.Rotation
import NestHarness.User.Validation
import NestHarness.User.SignInBody
import NestHarness.User.Admission
import NestHarness.User.Race
import NestHarness.User.Expiry
import NestHarness.User.History
import NestHarness.User.Password
import NestHarness.ApiLog.Interceptor
import NestHarness.Queue.Dispatch
import NestHarness.User.Secrets
import NestHarness.ApiLog.Maintenance
import NestHarness.ApiLog.Lock
import NestHarness.ApiLog.MonthNames
import NestHarness.ApiLog.Partitions
import NestHarness.Http.ErrorFilter
import NestHarness.Http.Guards
import NestHarness.Http.ExceptionFactory
import NestHarness.Http.FilterReplies
import NestHarness.ApiLog.Pipeline
import NestHarness.ApiLog.Columns
import NestHarness.ApiLog.Retention
import NestHarness.ApiLog.Schedule
import NestHarness.ApiLog.Upkeep
import NestHarness.Queue.Registry
import NestHarness.Queue.Handlers
import NestHarness.Queue.Shutdown
import NestHarness.Queue.Consumers
import NestHarness.Queue.Ledger
import NestHarness.Queue.Delivery
import NestHarness.Queue.Processing
import NestHarness.Queue.Outcome
import NestHarness.Queue.CallTree
import NestHarness.Queue.NestedCalls
import NestHarness.Common.Pagination
import NestHarness.Common.PageBounds
import NestHarness.Common.Pages
import NestHarness.Common.Excel
import NestHarness.Harness.ValidateRequest
import NestHarness.Lib.Segments
import NestHarness.Lib.Bytes
import NestHarness.ApiLog.RoutePath
import NestHarness.User.TokenCipher
import NestHarness.Harness.RunTests
import NestHarness.Harness.RetryBudget
import NestHarness.Lib.TxnLog
import NestHarness.User.Provenance
import NestHarness.User.Revocation
import NestHarness.Http.Bearer
import NestHarness.Http.Controller
import NestHarness.ApiLog.Storage
import NestHarness.ApiLog.Fleet
import NestHarness.Lib.TxnTurns
import NestHarness.User.Register
import NestHarness.User.Queued
import NestHarness.Lib.Regex
import NestHarness.Lib.RegexSyntax
import NestHarness.Lib.Glob
import NestHarness.Harness.ValidateWork
import NestHarness.Harness.Hooks
import NestHarness.Common.Patterns
import NestHarness.Lib.TxnLive
import NestHarness.User.Liveness
import NestHarness.Http.Logout
import NestHarness.User.Devices
