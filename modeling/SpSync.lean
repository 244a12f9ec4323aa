import SpSync.Proof.Chat.MessageEvents
import SpSync.Proof.Chat.OrderlyChannels
import SpSync.Proof.Core.DataRoundTrip
import SpSync.Proof.Core.GapSearch
import SpSync.Proof.Core.HaveOctets
import SpSync.Proof.Core.HeldChunks
import SpSync.Proof.Core.KeyStorage
import SpSync.Proof.Core.Retention
import SpSync.Proof.Core.SignedOctets
import SpSync.Proof.Core.SizeClasses
import SpSync.Proof.Core.StoredRecords
import SpSync.Proof.Engine.AnchorSafety
import SpSync.Proof.Engine.CommitPump
import SpSync.Proof.Engine.DataSync
import SpSync.Proof.Engine.FetchChains
import SpSync.Proof.Engine.FinalRecords
import SpSync.Proof.Engine.RebasedCommits
import SpSync.Proof.Engine.VerificationModes
import SpSync.Proof.Engine.VerifiedHistory
import SpSync.Proof.Membership.FailClosed
import SpSync.Proof.Membership.PrunedMembers
import SpSync.Proof.Server.AnchorAgreement
import SpSync.Proof.Server.CrashSafety
import SpSync.Proof.Server.CutRecords
import SpSync.Proof.Server.DataAccounting
import SpSync.Proof.Server.DivergenceBracket
import SpSync.Proof.Server.KeptObjects
import SpSync.Proof.Server.RolledBackHeads
import SpSync.Proof.Server.StablePlacement
import SpSync.Proof.Server.UnionMerge
import SpSync.Proof.Transfer.PieceCursor
