import Tracewake.Hosted.FencedDeletion
import Tracewake.Hosted.PermanentDeletion
import Tracewake.Hosted.StaleAttempt
import Tracewake.Hosted.IdempotentRequests
import Tracewake.Hosted.Credentials
import Tracewake.Results.Canonical
import Tracewake.Recording.PureReplay
import Tracewake.Alignment.NeedlemanWunsch
import Tracewake.Artifacts.SignedUrls
import Tracewake.Hosted.CheckedObjects
import Tracewake.Recording.Idempotence
import Tracewake.Recording.Secrets
import Tracewake.Recording.StreamedCalls
import Tracewake.Recording.ClosedLogs
import Tracewake.Localization.Totality
import Tracewake.Localization.Evidence
import Tracewake.ReadCommitted.Frames
import Tracewake.ReadCommitted.Promises
import Tracewake.Hosted.ProgressReports
import Tracewake.Hosted.Leases
import Tracewake.ReadCommitted.Alone
import Tracewake.Recording.FairMatching
import Tracewake.Profiles.TokenShares
import Tracewake.Hosted.NormalizedRequests
import Tracewake.Recording.StreamHandles
import Tracewake.Profiles.PprofRoundTrip
import Tracewake.Alignment.Similarity
import Tracewake.Alignment.SimilarityBounds
import Tracewake.Budgets.Bisection
import Tracewake.JsonText.Weight
import Tracewake.Reports.Budget
import Tracewake.Hosted.Pagination
import Tracewake.Hosted.ReconcileIdempotence
import Tracewake.Alignment.SelfDivergence
import Tracewake.Alignment.DiffRuns
import Tracewake.Recording.SessionLogs
import Tracewake.Recording.FaithfulReplay
import Tracewake.Recording.Extension
import Tracewake.Cassettes.Transport
import Tracewake.Bundles.Rebuilt
