import QBittorrent.Http.Connection
import QBittorrent.Http.Multipart
import QBittorrent.Tracker.Statistics
import QBittorrent.Sync.WebClient
import QBittorrent.Sync.Peers
import QBittorrent.Resume.Worker
import QBittorrent.Resume.Queue
import QBittorrent.Session.Paths
import QBittorrent.Session.Lookup
import QBittorrent.Session.ResumeData
import QBittorrent.Rss.ArticleStore
import QBittorrent.Session.StartupProtocol
import QBittorrent.IpFilter.P2B
import QBittorrent.IpFilter.P2P
import QBittorrent.Watcher.Options
import QBittorrent.Session.MoveQueueProtocol
import QBittorrent.Session.FinishedTorrents
import QBittorrent.Session.ContentRemoval
import QBittorrent.Torrent.DeferredTriggers
import QBittorrent.Session.TrackerUpdates
import QBittorrent.Session.Shutdown
import QBittorrent.Session.BannedIPs
import QBittorrent.Session.FileSearch
import QBittorrent.Session.AlertDispatch
import QBittorrent.Session.TorrentCreation
import QBittorrent.Net.Smtp
import QBittorrent.Rss.WaitingJobs
import QBittorrent.WebUI.Authentication
import QBittorrent.Session.QueueMoves
import QBittorrent.Torrent.PadFiles
import QBittorrent.WebUI.RenameFiles
import QBittorrent.Sync.Diff
import QBittorrent.Geo.Encoding
import QBittorrent.Gui.CategoryRuns
import QBittorrent.IpFilter.DottedQuad
import QBittorrent.Utils.ByteArray
import QBittorrent.Session.BandwidthScheduler
import QBittorrent.Search.SearchHandler
import QBittorrent.Http.UrlEncoded
import QBittorrent.Search.SearchPluginManager
import QBittorrent.Utils.FolderTree
import QBittorrent.Rss.FeedsFile
import QBittorrent.Gui.TrackersFilterRuns
import QBittorrent.App.CommandLine
import QBittorrent.Session.TorrentFileGuard
import QBittorrent.App.ExternalProgram
import QBittorrent.Gui.ContentPriority
import QBittorrent.Session.ShareLimits
import QBittorrent.WebUI.StaticFiles
import QBittorrent.WebUI.TorrentsInfo
import QBittorrent.Rss.DateValues
import QBittorrent.Utils.SplitToViews
import QBittorrent.Torrent.FilePieces
import QBittorrent.WebUI.TableRounds
import QBittorrent.WebUI.TableSelection
