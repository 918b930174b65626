import Prescient.Actor
import Prescient.Fallible
import Prescient.Guarded
import Prescient.Lockstep
import Prescient.Ring
import Prescient.RingFifo
import Prescient.RingTeardown
import Prescient.Broadcast
import Prescient.BroadcastStream
import Prescient.BroadcastTeardown
import Prescient.BroadcastDisconnect
import Prescient.Brokerless
import Prescient.BrokerlessCore
import Prescient.BrokerlessDelivery
import Prescient.Custody
import Prescient.Leased
import Prescient.LeasedCustody
import Prescient.LeasedBatches
import Prescient.LeaseAdmission
import Prescient.LeasedDrain
import Prescient.Frame
import Prescient.Checksum
import Prescient.Stream
import Prescient.Pieces
import Prescient.ChunkMeta
import Prescient.ArenaLayout
import Prescient.StreamProtocol
import Prescient.StreamEndpoints
import Prescient.StreamAgreement
import Prescient.StreamExit
import Prescient.StreamProgress
import Prescient.StreamHonest
import Prescient.StreamLockstep
import Prescient.StreamLengths
import Prescient.Wakeup
import Prescient.Codec
import Prescient.Setup
import Prescient.Pairing
import Prescient.StreamIntake
import Prescient.Mpsc
import Prescient.MpscBell
import Prescient.MpscCustody
import Prescient.MpscSend
import Prescient.MpscMembership
import Prescient.MpscPass
import Prescient.MpscScan
import Prescient.MpscReceive
import Prescient.MpscDelivery
import Prescient.MpscTouch
import Prescient.MpscTeardown
import Prescient.MpscClosing
import Prescient.Pool
import Prescient.PoolTenancy
import Prescient.MpscWake
import Prescient.AsyncSend
import Prescient.AsyncWake
import Prescient.SendBatch
import Prescient.Census
import Prescient.Lanes
import Prescient.LanesDelivery
import Prescient.Brokered
import Prescient.BrokeredDelivery
import Prescient.Mask
import Prescient.PubSub
import Prescient.ReceiveStyles
import Prescient.Dynamic
import Prescient.DynamicDelivery
import Prescient.RingBulk
import Prescient.OwnedBatch
import Prescient.Links
import Prescient.Inbox
import Prescient.InboxHandoff
import Prescient.Seg
import Prescient.SegQueue
import Prescient.Declare
import Prescient.StdThread
import Prescient.Handshake
import Prescient.HandshakeSides
import Prescient.HandshakeAgreement
import Prescient.Destination
import Prescient.Duplex
