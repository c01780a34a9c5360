import Ensemble.Address
import Ensemble.Config.Basic
import Ensemble.Config.Context
import Ensemble.Config.Loader
import Ensemble.Config.Setting
import Ensemble.Config.Settings
import Ensemble.ConfigError
import Ensemble.Disk.Basic
import Ensemble.Disk.Change
import Ensemble.Disk.FileError
import Ensemble.Endpoint.Basic
import Ensemble.Endpoint.Reader
import Ensemble.Ids
import Ensemble.Json.Basic
import Ensemble.Json.Number
import Ensemble.Json.Printer
import Ensemble.Json.Reader
import Ensemble.Members
import Ensemble.Membership.Files
import Ensemble.Membership.Layout
import Ensemble.Membership.Registry
import Ensemble.Membership.Snapshot
import Ensemble.Membership.State
import Ensemble.Membership.Store
import Ensemble.MembershipKey
import Ensemble.Notice
import Ensemble.Path
import Ensemble.Properties.Basic
import Ensemble.Properties.Escape
import Ensemble.Properties.Reader
import Ensemble.Quorum.ConnectString
import Ensemble.Quorum.Hierarchy
import Ensemble.Quorum.Majority
import Ensemble.Quorum.Population
import Ensemble.Quorum.Verifier
import Ensemble.Reported
import Ensemble.Role
import Ensemble.Script.AtomicFile
import Ensemble.Script.Basic
import Ensemble.Script.File
import Ensemble.Server
import Ensemble.Table
import Ensemble.Text.Blank
import Ensemble.Text.GraphemeExtend
import Ensemble.Text.Lines
import Ensemble.Text.Numeral
import Ensemble.Text.Quoted
import Ensemble.Text.Unprintable
import Ensemble.Text.Utf8
import Ensemble.Proofs.Quorum.Intersection
import Ensemble.Proofs.Script.Yields
import Ensemble.Proofs.Membership.Refusals
import Ensemble.Proofs.Membership.Run
import Ensemble.Proofs.Membership.Restart
import Ensemble.Proofs.Membership.Agreement
import Ensemble.Proofs.Membership.Admission
import Ensemble.Proofs.Membership.Survival
import Ensemble.Proofs.Endpoint.Hosts
import Ensemble.Proofs.Members
import Ensemble.Proofs.MembershipKey
import Ensemble.Proofs.Properties.Backslashes
import Ensemble.Proofs.Quorum.Entries
import Ensemble.Proofs.Quorum.Reading
import Ensemble.Proofs.Quorum.Rolls
import Ensemble.Proofs.Quorum.RoundTrip
import Ensemble.Proofs.Config.Relocation
import Ensemble.Proofs.Membership.StaticFile
import Ensemble.Proofs.Membership.DynamicFile
import Ensemble.Proofs.Quorum.Arithmetic
import Ensemble.Proofs.Quorum.Declared
import Ensemble.Proofs.Membership.Switch
import Ensemble.Proofs.Disk.Growth
import Ensemble.Proofs.Membership.Sparing
import Ensemble.Proofs.Membership.Backup
import Ensemble.Proofs.Quorum.Making
import Ensemble.Proofs.Quorum.Flat
import Ensemble.Proofs.Quorum.Voters
import Ensemble.Proofs.Quorum.Content
import Ensemble.Proofs.Properties.Appending
import Ensemble.Proofs.Properties.Continuations
import Ensemble.Proofs.Script.AllOrNothing
import Ensemble.Proofs.Membership.Touching
import Ensemble.Proofs.Quorum.ConnectString
import Ensemble.Proofs.Membership.Names
import Ensemble.Proofs.Config.Unknown
import Ensemble.Proofs.Membership.Snapshot
