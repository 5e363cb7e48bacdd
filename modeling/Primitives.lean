import Primitives.Patch.Correct
import Primitives.Patch.Bounds
import Primitives.Patch.ZeroCounts
import Primitives.Csv.Correct
import Primitives.Future.Then
import Primitives.Future.WhenAll
import Primitives.Cron.Conserve
import Primitives.Cron.OneShot
import Primitives.Executor.Barrier
import Primitives.Executor.Blocking
import Primitives.Versions.Hash
import Primitives.Versions.Union
import Primitives.Versions.Sorted
import Primitives.Versions.Inside
import Primitives.Versions.RoundTrip
import Primitives.Versions.Agree
import Primitives.Versions.Wildcards
import Primitives.Versions.Subset
import Primitives.Mmap.Journal
import Primitives.Settings.Literal
import Primitives.Settings.Paths
import Primitives.Settings.Dump
import Primitives.Settings.Layers
import Primitives.Base64.RoundTrip
import Primitives.Command.Pipeline
import Primitives.Emitters.Cut
import Primitives.BinaryStream.RoundTrip
import Primitives.BinaryStream.Shared
import Primitives.Html.Print
import Primitives.Makefile.Conditions
import Primitives.Version1.Sorted
import Primitives.Version1.Inside
import Primitives.Monitor
import Primitives.Cache.Counter
import Primitives.Db.History
import Primitives.KeyValue.Store
import Primitives.Hash.Strong
import Primitives.Pack.Unpack
import Primitives.Source.Print
import Primitives.Source.Persist
import Primitives.ResponseFile
import Primitives.Future.WhenAny
import Primitives.Cron.Waits
import Primitives.Settings.CodePoint
import Primitives.Settings.Typed
import Primitives.Settings.Dotted
import Primitives.Base64.Strict
import Primitives.Mmap.Paths
import Primitives.Makefile.Keywords
import Primitives.Storage.Correct
import Primitives.Versions.Latin
import Primitives.Command.Environment
import Primitives.Version1.Order
import Primitives.Version1.Parse
import Primitives.BinaryStream.Save
import Primitives.Emitters.Back
import Primitives.Html.Attributes
import Primitives.Makefile.Resolve
import Primitives.Makefile.Bounds
import Primitives.Command.Positions
import Primitives.Command.Quote
import Primitives.Command.Arguments
import Primitives.Command.Variables
import Primitives.Files.Under
import Primitives.Files.Read
import Primitives.Files.Bom
import Primitives.Files.Dirs
import Primitives.Hash.Hex
import Primitives.Http.Url
import Primitives.Templates.Fragments
import Primitives.Templates.Crc32
import Primitives.Versions.Releases
import Primitives.Xml.Tags
import Primitives.Yaml.Merge
import Primitives.CommandLine.Runs
import Primitives.CommandLine.Registration
import Primitives.CommandLine.Removal
import Primitives.Locks
import Primitives.Executor.Tasks
