import TrainsRing.Ring.NoLoss
import TrainsRing.Ring.SenderOrder
import TrainsRing.Membership.SplitBrain
import TrainsRing.Membership.LostChange
import TrainsRing.Membership.Readmit
import TrainsRing.Reference.Agreement
import TrainsRing.Reconfig.FrozenIssue
import TrainsRing.Reconfig.MemberAgreement
import TrainsRing.Reconfig.SurvivorAgreement
import TrainsRing.Reconfig.UniformAgreement
import TrainsRing.Reconfig.LateTrains
import TrainsRing.Interface.Deliveries
import TrainsRing.Driver.StaleToken
import TrainsRing.Interface.Restored
import TrainsRing.Driver.Frames
import TrainsRing.Ring.TokenClocks
import TrainsRing.Reconfig.Skew
import TrainsRing.Reconfig.Pace
import TrainsRing.Ring.Recycling
import TrainsRing.Membership.GatherEnds
import TrainsRing.Interface.KeyOrder
import TrainsRing.Interface.AckGate
import TrainsRing.Interface.Unported
import TrainsRing.Interface.Merged
import TrainsRing.Interface.Retention
import TrainsRing.Reconfig.MergeOrder
import TrainsRing.Driver.GapEvidence
import TrainsRing.Transport.Connector
import TrainsRing.Transport.StateTransfer
import TrainsRing.Transport.Framing
import TrainsRing.Transport.Link
import TrainsRing.Trace.Validator
import TrainsRing.Bench.TotalOrder
import TrainsRing.Ao.Adapter
import TrainsRing.Driver.Reform
import TrainsRing.Spec.Refinement
import TrainsRing.Trace.Recorded
import TrainsRing.Ring.Progress
