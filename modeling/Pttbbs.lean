import Pttbbs.PostSvc.CompetingEdits
import Pttbbs.PostSvc.CommentRaces
import Pttbbs.PostSvc.HistoryLog
import Pttbbs.PostSvc.PostIDs
import Pttbbs.PostSvc.PurgeTraces
import Pttbbs.PostSvc.Voting
import Pttbbs.IpcSvc.Delivery
import Pttbbs.FriendSvc.BoardAccess
import Pttbbs.FriendSvc.Published
import Pttbbs.Mbbsd.FavShapes
import Pttbbs.Mbbsd.PwcuSessions
import Pttbbs.Mbbsd.BrcLru
import Pttbbs.Mbbsd.ChcGame
import Pttbbs.Mbbsd.ChessAgreement
import Pttbbs.Common.TelnetReports
import Pttbbs.Common.UserHash
import Pttbbs.Common.UtmpRuns
import Pttbbs.Mbbsd.LotteryDraw
import Pttbbs.PostSvc.Flush
import Pttbbs.PostSvc.Reimport
import Pttbbs.PostSvc.SyncDirTwice
import Pttbbs.PostSvc.ArticleLines
import Pttbbs.SearchSvc.AidTableExact
import Pttbbs.SearchSvc.DirSearch
import Pttbbs.SearchSvc.WebTail
import Pttbbs.PostSvc.IpcPanics
import Pttbbs.MailSvc.SpoolRuns
import Pttbbs.Common.VbufRuns
import Pttbbs.Common.VbufFlat
import Pttbbs.Common.VtkbdGrammar
import Pttbbs.Common.Big5Utf8Results
import Pttbbs.Common.BoardLookup
import Pttbbs.Common.BoardGroups
import Pttbbs.Common.AidCodes
import Pttbbs.Common.DbcsSearch
import Pttbbs.Common.ControlGrammar
import Pttbbs.Common.StreamColumns
import Pttbbs.Big5uao.Streaming
import Pttbbs.Mbbsd.CommentBlocks
import Pttbbs.Big5uao.TwoColours
import Pttbbs.Common.Records
import Pttbbs.StatSvc.SaveRuns
import Pttbbs.Mbbsd.FavSort
import Pttbbs.Common.Sanitize
import Pttbbs.Common.PasswdText
import Pttbbs.Common.BanTokensExact
import Pttbbs.SearchSvc.CacheRuns
import Pttbbs.Common.BanListCache
import Pttbbs.MailSvc.AnsiPages
import Pttbbs.MailSvc.Compose
