import CwatchBackend.CompleteTracks
import CwatchBackend.LiveArea
import CwatchBackend.Process.DrawnPicture
import CwatchBackend.Process.Enrichment
import CwatchBackend.Process.LivePicture
import CwatchBackend.Process.PixelCache
import CwatchBackend.Process.ProfileConcurrency
import CwatchBackend.Process.UnknownIdentity
import CwatchBackend.Process.ViewDeliveries
import CwatchBackend.Process.ViewportArithmetic
import CwatchBackend.Process.ViewportRace
import CwatchBackend.RouteConfiguration
import CwatchBackend.Store.ChronologicalTracks
import CwatchBackend.Store.CompositeTrackStore
import CwatchBackend.Store.FailedPump
import CwatchBackend.Store.IdentityDirections
import CwatchBackend.Store.IdentityPeriods
import CwatchBackend.Store.PositionLog
import CwatchBackend.Store.RowKeys
import CwatchBackend.Store.SameCalls
import CwatchBackend.Store.TrackWindows
import CwatchBackend.Test.RealTimeSimulator
import CwatchBackend.Web.PositionLink
import CwatchBackend.Web.StartedViews
