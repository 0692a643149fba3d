import Wpm.Lib.Search
import Wpm.Lib.CString
import Wpm.Lib.Check
import Wpm.Lib.Text
import Wpm.Lib.Slots
import Wpm.Lib.Command
import Wpm.JsonInput
import Wpm.Lib.Json
import Wpm.JsonLexical
import Wpm.JsonValues
import Wpm.JsonCompletes
import Wpm.JsonDocument
import Wpm.JsonOutput
import Wpm.Signing
import Wpm.Archive.Path
import Wpm.Archive.Zip
import Wpm.Archive.ZipWrite
import Wpm.Archive.ZipRead
import Wpm.Archive.ZipRoundTrip
import Wpm.Archive.Validate
import Wpm.Archive.Stage
import Wpm.Archive.VerifyIndex
import Wpm.Operation.Record
import Wpm.Operation.State
import Wpm.Operation.Plan
import Wpm.Operation.Drivers
import Wpm.Operation.History
import Wpm.Operation.Invariant
import Wpm.Operation.Journal
import Wpm.Operation.Specs
import Wpm.Operation.Approval
import Wpm.Operation.Runs
import Wpm.Operation.Identity
import Wpm.Archive.Metadata
import Wpm.Archive.Retention
import Wpm.Lib.Decimal
import Wpm.Lib.SemVer
import Wpm.Repository.Semver
import Wpm.Repository.SemverGrammar
import Wpm.Repository.Select
import Wpm.Lib.Best
import Wpm.Repository.Candidate
import Wpm.Repository.Upgrade
import Wpm.Repository.UpgradePlan
import Wpm.Repository.FileNames
import Wpm.Repository.Containment
import Wpm.JsonFields
import Wpm.Lib.Utf8
import Wpm.Lib.JsonString
import Wpm.JsonStrings
import Wpm.JsonRoot
import Wpm.Lib.JsonNumber
import Wpm.JsonVersion
import Wpm.JsonUtf8
import Wpm.Redaction
import Wpm.RedactionLaws
import Wpm.RedactionEnds
import Wpm.Progress
import Wpm.JsonEncoding
import Wpm.Trust
import Wpm.Lib.Substring
import Wpm.Lib.PrefixCode
import Wpm.Operation.PlanDigest
import Wpm.Operation.RecordParse
import Wpm.Operation.RecoveryRecords
import Wpm.Operation.StoreInput
import Wpm.Lib.Glob
import Wpm.Lib.Loop
import Wpm.Lib.Streaming
import Wpm.Lib.Transducer
import Wpm.Archive.ScriptLog
import Wpm.Archive.ScriptSgr
import Wpm.Archive.Ignore
import Wpm.Revocation
import Wpm.DefaultKey
import Wpm.Https.Framing
import Wpm.Https.Headers
import Wpm.Https.Redirect
import Wpm.Repository.Configuration
import Wpm.Repository.Prerelease
import Wpm.Repository.ConfigurationRun
import Wpm.Repository.Lengths
import Wpm.Repository.Concurrent
import Wpm.Repository.Table
import Wpm.Repository.CatalogReaders
import Wpm.Repository.CatalogElements
import Wpm.Repository.IndexCache
import Wpm.Lib.Fields
import Wpm.Archive.UpgradeAudit
import Wpm.Recovery
import Wpm.Archive.Staging
import Wpm.Repository.Installed
import Wpm.Lib.JsonText
import Wpm.Lib.Bindings
import Wpm.CommandLine.Options
import Wpm.CommandLine.Dispatch
import Wpm.CommandLine.Agreement
import Wpm.Lib.FileTree
import Wpm.Archive.RemoveTree
import Wpm.Archive.RemoveTreePaths
import Wpm.Archive.RemoveTreeLaws
import Wpm.Archive.RemoveTreeLinks
import Wpm.Repository.Query
import Wpm.Repository.QueryDocument
import Wpm.Lib.JsonFrame
import Wpm.Lib.Gather
import Wpm.Repository.CatalogText
import Wpm.Repository.CatalogWriters
import Wpm.Repository.CatalogIndex
import Wpm.Lib.Critical
import Wpm.Repository.Publication
import Wpm.Lib.Outcome
import Wpm.Lib.JsonBytes
import Wpm.JsonWritten
import Wpm.Operation.RecordText
import Wpm.Operation.RecordReading
import Wpm.Operation.RecordRoundTrip
