import Chronicle.Bson.Basic
import Chronicle.Bson.DateText
import Chronicle.Bson.Decimal128
import Chronicle.Bson.ExtendedJson.Printer
import Chronicle.Bson.ExtendedJson.Reader
import Chronicle.Codec.Basic
import Chronicle.Database.ChangeFeed
import Chronicle.Database.Client
import Chronicle.Database.Command
import Chronicle.Database.Dialogue
import Chronicle.Database.EventStore
import Chronicle.Database.PositionStore
import Chronicle.Database.Reply
import Chronicle.Database.Transaction
import Chronicle.Decimal.Reader
import Chronicle.Decimal.Scale
import Chronicle.Decimal.Shortest
import Chronicle.Event.Basic
import Chronicle.Event.CloudEvent
import Chronicle.Event.Envelope
import Chronicle.Event.Rules
import Chronicle.Feed.Basic
import Chronicle.Fields
import Chronicle.Json.Basic
import Chronicle.Json.Printer
import Chronicle.Json.Reader
import Chronicle.Logging.Filter
import Chronicle.NameMap
import Chronicle.Proofs.Bson.Decimal128
import Chronicle.Proofs.Bson.ExtendedJson
import Chronicle.Proofs.Bson.Forms
import Chronicle.Proofs.Bson.Unsigned
import Chronicle.Proofs.Bson.WellFormed
import Chronicle.Proofs.Codec.Acceptance
import Chronicle.Proofs.Codec.Coordinates
import Chronicle.Proofs.Codec.Decoding
import Chronicle.Proofs.Codec.Documents
import Chronicle.Proofs.Codec.Encoding
import Chronicle.Proofs.Codec.Payloads
import Chronicle.Proofs.Codec.RoundTrip
import Chronicle.Proofs.Codec.Storable
import Chronicle.Proofs.Codec.Times
import Chronicle.Proofs.Database.Course
import Chronicle.Proofs.Database.Exchanges
import Chronicle.Proofs.Database.Markers
import Chronicle.Proofs.Database.Paging
import Chronicle.Proofs.Database.Races
import Chronicle.Proofs.Database.Server
import Chronicle.Proofs.Database.Sessions
import Chronicle.Proofs.Database.Stages
import Chronicle.Proofs.Database.Upserts
import Chronicle.Proofs.Database.Writers
import Chronicle.Proofs.Decimal.Rounding
import Chronicle.Proofs.Decimal.Scale
import Chronicle.Proofs.Decimal.Shortest
import Chronicle.Proofs.Event.Acceptance
import Chronicle.Proofs.Event.Envelope
import Chronicle.Proofs.Event.Reading
import Chronicle.Proofs.Event.RoundTrip
import Chronicle.Proofs.Event.Rules
import Chronicle.Proofs.Event.Stability
import Chronicle.Proofs.Event.Times
import Chronicle.Proofs.Event.Toolkit
import Chronicle.Proofs.Except
import Chronicle.Proofs.Feed.Agreement
import Chronicle.Proofs.Feed.Broadcast
import Chronicle.Proofs.Feed.Changes
import Chronicle.Proofs.Feed.Resumption
import Chronicle.Proofs.Fields
import Chronicle.Proofs.Json.Acceptance
import Chronicle.Proofs.Json.Doubles
import Chronicle.Proofs.Json.Grammar
import Chronicle.Proofs.Json.Levels
import Chronicle.Proofs.Json.Numerals
import Chronicle.Proofs.Json.Parts
import Chronicle.Proofs.Json.ReadBack
import Chronicle.Proofs.Json.Rereading
import Chronicle.Proofs.Json.Spelling
import Chronicle.Proofs.Json.Strings
import Chronicle.Proofs.Json.TooDeep
import Chronicle.Proofs.Store.Append
import Chronicle.Proofs.Store.Atomic
import Chronicle.Proofs.Store.Coherence
import Chronicle.Proofs.Store.History
import Chronicle.Proofs.Store.Lag
import Chronicle.Proofs.Store.PositionRuns
import Chronicle.Proofs.Store.Positions
import Chronicle.Proofs.Store.ReadBack
import Chronicle.Proofs.Store.Versions
import Chronicle.Proofs.Store.Windows
import Chronicle.Proofs.Subscription.Answering
import Chronicle.Proofs.Subscription.Calls
import Chronicle.Proofs.Subscription.Course
import Chronicle.Proofs.Subscription.Delivery
import Chronicle.Proofs.Subscription.Endings
import Chronicle.Proofs.Subscription.Exclusion
import Chronicle.Proofs.Subscription.Independence
import Chronicle.Proofs.Subscription.Journal
import Chronicle.Proofs.Subscription.LifeCycle
import Chronicle.Proofs.Subscription.Parts
import Chronicle.Proofs.Subscription.Refusal
import Chronicle.Proofs.Subscription.Restart
import Chronicle.Proofs.Subscription.Shutdown
import Chronicle.Proofs.Subscription.Staff
import Chronicle.Proofs.Subscription.Steps
import Chronicle.Proofs.Subscription.System
import Chronicle.Proofs.Subscription.Underway
import Chronicle.Proofs.Subscription.Usage
import Chronicle.Proofs.Subscription.Workers
import Chronicle.Proofs.Text.Base64
import Chronicle.Proofs.Text.Digits
import Chronicle.Proofs.Text.Utf8
import Chronicle.Proofs.Time.Calendar
import Chronicle.Proofs.Time.Order
import Chronicle.Proofs.Time.Reading
import Chronicle.Proofs.Time.Rfc3339
import Chronicle.Settings.Basic
import Chronicle.Settings.Reading
import Chronicle.Settings.Sources
import Chronicle.Settings.Tree
import Chronicle.Simulation.Basic
import Chronicle.Simulation.Command
import Chronicle.Store.Basic
import Chronicle.Store.Config
import Chronicle.Store.EventLog
import Chronicle.Store.Positions
import Chronicle.Subscription.Registry
import Chronicle.Subscription.Worker
import Chronicle.Text.Base64
import Chronicle.Text.Blank
import Chronicle.Text.Case
import Chronicle.Text.Digits
import Chronicle.Text.Quoted
import Chronicle.Text.Utf8
import Chronicle.Time.Date
import Chronicle.Time.Rfc3339.Printer
import Chronicle.Time.Rfc3339.Reader
import Chronicle.Time.Timestamp
import Chronicle.Yaml.Basic
import Chronicle.Yaml.Place
import Chronicle.Yaml.Reader
import Chronicle.Yaml.Scalar
