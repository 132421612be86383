import CourseWork.Lib.Bitmap
import CourseWork.Lib.CLib
import CourseWork.Lib.Tokens
import CourseWork.Lib.Stdio
import CourseWork.Lib.Strtod
import CourseWork.Lib.Snprintf
import CourseWork.Lib.CallFrame
import CourseWork.Lib.Crc
import CourseWork.Lib.Cyclic
import CourseWork.Lib.Handles
import CourseWork.Lib.HashTable
import CourseWork.Lib.Numeral
import CourseWork.Lib.PathTree
import CourseWork.Lib.Prog
import CourseWork.Lib.Runs
import CourseWork.Lib.Sorting
import CourseWork.Lib.Sha1
import CourseWork.Lib.SparseFile
import CourseWork.Lib.Tiling
import CourseWork.Lib.Ustar
import CourseWork.Lib.CheckedMemory
import CourseWork.Lib.Url
import CourseWork.Torrent.Bencode
import CourseWork.Torrent.BencodeGrammar
import CourseWork.Torrent.BencodeRoundTrip
import CourseWork.Torrent.Metainfo
import CourseWork.Torrent.InfoHash
import CourseWork.Torrent.Geometry
import CourseWork.Torrent.PieceArithmetic
import CourseWork.Torrent.Storage
import CourseWork.Torrent.Tar
import CourseWork.Torrent.Overlap
import CourseWork.Torrent.StorageWrite
import CourseWork.Torrent.StoragePaths
import CourseWork.Torrent.Network
import CourseWork.Torrent.Peer
import CourseWork.Torrent.TarHeaders
import CourseWork.Torrent.TarWrite
import CourseWork.Torrent.TarArchive
import CourseWork.Torrent.Download
import CourseWork.Torrent.DownloadRules
import CourseWork.Torrent.BlockRequests
import CourseWork.Torrent.DownloadInvariant
import CourseWork.Torrent.Session
import CourseWork.Torrent.Reception
import CourseWork.Torrent.FrameSync
import CourseWork.Torrent.ChokeDiscipline
import CourseWork.Torrent.TarDownload
import CourseWork.Torrent.OutputCalls
import CourseWork.Torrent.Acceptance
import CourseWork.Torrent.Coverage
import CourseWork.Torrent.Flow
import CourseWork.Torrent.HonestPeer
import CourseWork.Torrent.RequestTiling
import CourseWork.Torrent.StorageDownload
import CourseWork.Torrent.TarInOrder
import CourseWork.Torrent.BackEnds
import CourseWork.Torrent.Announced
import CourseWork.Torrent.Availability
import CourseWork.Torrent.TarExact
import CourseWork.Torrent.BencodeMemory
import CourseWork.Torrent.OutputPaths
import CourseWork.Torrent.BencodeBounds
import CourseWork.Torrent.BencodeLookup
import CourseWork.Torrent.Dynbuf
import CourseWork.Torrent.Tracker
import CourseWork.Torrent.TrackerResponse
import CourseWork.Torrent.TrackerUrl
import CourseWork.Game.Moves
import CourseWork.Game.RowMoves
import CourseWork.Game.RowLoops
import CourseWork.Game.Bounds
import CourseWork.Game.Slide
import CourseWork.Game.Flags
import CourseWork.Game.Leaderboard
import CourseWork.Game.ScoreFile
import CourseWork.Game.TopTen
import CourseWork.Game.MainLoop
import CourseWork.Game.Program
import CourseWork.Driver.RingBuffer
import CourseWork.Driver.Queue
import CourseWork.Driver.Blocking
import CourseWork.Driver.Resize
import CourseWork.Driver.SystemCalls
import CourseWork.LogParser.Parser
import CourseWork.LogParser.Lines
import CourseWork.LogParser.Aggregate
import CourseWork.LogParser.Parallel
import CourseWork.LogParser.Report
import CourseWork.WebServer.Request
import CourseWork.WebServer.Containment
import CourseWork.WebServer.StaleMemory
import CourseWork.WebServer.Listing
import CourseWork.WebServer.Sendfile
import CourseWork.WebServer.Replies
import CourseWork.WebServer.Accept
import CourseWork.WebServer.Connection
import CourseWork.WebServer.EventLoop
import CourseWork.WebServer.Clients
import CourseWork.Crc.Crc32
import CourseWork.Crc.CheckCrc32
import CourseWork.Crc.Detection
import CourseWork.Zip.ExtractFiles
import CourseWork.Zip.Scan
import CourseWork.Zip.Alignment
import CourseWork.Zip.Names
import CourseWork.Zip.Accesses
import CourseWork.Asm.MainC
import CourseWork.Asm.Programs
import CourseWork.Asm.AddElement
import CourseWork.Asm.Plain
import CourseWork.Asm.Optimised
import CourseWork.Asm.Agreement
import CourseWork.Encodings.Utf8
import CourseWork.Encodings.Convert
import CourseWork.Logging.Logger
import CourseWork.Telehack.Figlet
import CourseWork.Telehack.Segmentation
import CourseWork.Daemon.Config
import CourseWork.Daemon.LastValue
import CourseWork.Daemon.Service
import CourseWork.Databases.TestDbJob
import CourseWork.Databases.Agreement
import CourseWork.Driver.Stream
import CourseWork.Torrent.Program
import CourseWork.Lib.Http
import CourseWork.WebServer.Client
import CourseWork.Game.Ending
import CourseWork.Logging.Threads
