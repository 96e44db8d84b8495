import Rezzy.Resolve.Deltas
import Rezzy.Resolve.Semilattice
import Rezzy.Hamt.Descend
import Rezzy.OrdMap.DiffSpec
import Rezzy.State.HashedRuns
import Rezzy.State.LtHash
import Rezzy.Auth.ChainVerdicts
import Rezzy.Resolve.V3Spec
import Rezzy.Json.RawAgrees
import Rezzy.Recon.HonestResponder
import Rezzy.Recon.Client
import Rezzy.Merkle.CausalSound
import Rezzy.Merkle.CausalPaths
import Rezzy.Merkle.StateVerdicts
import Rezzy.Auth.Creators
import Rezzy.Auth.Gates
import Rezzy.Auth.PowerCeiling
import Rezzy.Recon.Gf64Field
import Rezzy.Resolve.SubgraphExact
import Rezzy.Resolve.SortingExact
import Rezzy.Resolve.AuthDifference
import Rezzy.State.MergeBasesExact
import Rezzy.Auth.RedactionExact
import Rezzy.Recon.Consistency
import Rezzy.State.AuthChainDiff
import Rezzy.State.PagedHistory
import Rezzy.OrdMap.Range
import Rezzy.State.DeltaChain
import Rezzy.State.StateDag
import Rezzy.State.StateBeforeSpec
import Rezzy.Hamt.Sweep
import Rezzy.Hamt.RootChain
import Rezzy.Hamt.Visit
import Rezzy.State.EventCacheRuns
import Rezzy.Pow.CuckooCycle
import Rezzy.Signing.Verify
import Rezzy.Merkle.ContentHash
import Rezzy.Cli.JsonlMergeExact
import Rezzy.Json.Integers
import Rezzy.Recon.FrameDigest
import Rezzy.State.LocalAuthHistory
import Rezzy.Cli.TimelineOrder
import Rezzy.Resolve.PromotionGrant
import Rezzy.Cli.RoomFiles
import Rezzy.State.MissingEvents
