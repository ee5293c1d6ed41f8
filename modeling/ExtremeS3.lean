import ExtremeS3.Agenda.Accounting
import ExtremeS3.Agenda.Basic
import ExtremeS3.Agenda.Display
import ExtremeS3.Agenda.Execution
import ExtremeS3.Agenda.ExitStatus
import ExtremeS3.Agenda.Idle
import ExtremeS3.Agenda.Order
import ExtremeS3.Agenda.Progress
import ExtremeS3.Agenda.Queue
import ExtremeS3.Agenda.Steps
import ExtremeS3.Agenda.Termination
import ExtremeS3.Commands.Cat
import ExtremeS3.Commands.DiskUsage
import ExtremeS3.Commands.Existence
import ExtremeS3.Commands.List
import ExtremeS3.Commands.Publish
import ExtremeS3.Commands.Remove
import ExtremeS3.Common
import ExtremeS3.Compressor.Calls
import ExtremeS3.Compressor.Compress
import ExtremeS3.Compressor.Decoder
import ExtremeS3.Compressor.Decompress
import ExtremeS3.Compressor.OnComplete
import ExtremeS3.Compressor.PartialWrites
import ExtremeS3.Compressor.Zlib
import ExtremeS3.Connection.Authorization
import ExtremeS3.Connection.Base64
import ExtremeS3.Connection.CheckForErrors
import ExtremeS3.Connection.CurlPool
import ExtremeS3.Connection.Headers
import ExtremeS3.Connection.ParsePath
import ExtremeS3.Connection.PathOrder
import ExtremeS3.Connection.Requests
import ExtremeS3.Connection.Service
import ExtremeS3.Connection.Signature
import ExtremeS3.Connection.Transfer
import ExtremeS3.Connection.Url
import ExtremeS3.Downloader.Content
import ExtremeS3.Downloader.Download
import ExtremeS3.Downloader.DownloadCompletes
import ExtremeS3.Downloader.ErrorAnswer
import ExtremeS3.Downloader.ExactlyOnce
import ExtremeS3.Downloader.Execution
import ExtremeS3.Downloader.Ranges
import ExtremeS3.Downloader.ScratchFiles
import ExtremeS3.Downloader.Segments
import ExtremeS3.Downloader.ShadowedDirectory
import ExtremeS3.Errors
import ExtremeS3.Files
import ExtremeS3.Lib.Cursor
import ExtremeS3.Lib.Decimal
import ExtremeS3.Lib.Dir
import ExtremeS3.Lib.DirList
import ExtremeS3.Lib.DirWalk
import ExtremeS3.Lib.FileSystem
import ExtremeS3.Lib.FileTree
import ExtremeS3.Lib.KeyOrder
import ExtremeS3.Lib.Lists
import ExtremeS3.Lib.Machine
import ExtremeS3.Lib.Plan
import ExtremeS3.Lib.Prog
import ExtremeS3.Lib.Slices
import ExtremeS3.Lib.SortedMap
import ExtremeS3.Lib.Tasks
import ExtremeS3.Lib.Wildcard
import ExtremeS3.RoundTrip
import ExtremeS3.ScratchFiles
import ExtremeS3.Sync.Basic
import ExtremeS3.Sync.DeleteMissing
import ExtremeS3.Sync.Deletions
import ExtremeS3.Sync.Download
import ExtremeS3.Sync.DownloadOrder
import ExtremeS3.Sync.EmptyNames
import ExtremeS3.Sync.EndToEnd
import ExtremeS3.Sync.Filter
import ExtremeS3.Sync.Listing
import ExtremeS3.Sync.ListingFailure
import ExtremeS3.Sync.LocalTree
import ExtremeS3.Sync.Merge
import ExtremeS3.Sync.MergeExact
import ExtremeS3.Sync.MergeOrder
import ExtremeS3.Sync.MirrorDownload
import ExtremeS3.Sync.MirrorUpload
import ExtremeS3.Sync.NamedPath
import ExtremeS3.Sync.Names
import ExtremeS3.Sync.NoDeletions
import ExtremeS3.Sync.Pages
import ExtremeS3.Sync.Paths
import ExtremeS3.Sync.PatternMatch
import ExtremeS3.Sync.RemoteTree
import ExtremeS3.Sync.Upload
import ExtremeS3.Sync.Walk
import ExtremeS3.UpToDate
import ExtremeS3.Uploader.Execution
import ExtremeS3.Uploader.Metadata
import ExtremeS3.Uploader.PartOrder
import ExtremeS3.Uploader.PartUpload
import ExtremeS3.Uploader.Pump
import ExtremeS3.Uploader.ScratchFiles
import ExtremeS3.Uploader.ShrunkenFile
import ExtremeS3.Uploader.StartUpload
import ExtremeS3.Uploader.Upload
import ExtremeS3.Uploader.UploadCompletes
