import P2P.Wire.Framing
import P2P.Wire.HostOrder
import P2P.Transfer.Link
import P2P.Transfer.Congestion
import P2P.Transfer.DuplicateAcks
import P2P.Transfer.Fragments
import P2P.Transfer.ReceiverBuffer
import P2P.Transfer.Succession
import P2P.Peer.DiskRuns
import P2P.Peer.ChunkFile
import P2P.Peer.UploadRuns
import P2P.Peer.UploadRecord
import P2P.Peer.Publish
import P2P.Peer.RepeatedIHave
import P2P.Peer.KeepAlive
import P2P.Peer.DownloadSweep
import P2P.Peer.Picking
import P2P.Peer.Inbound
import P2P.Peer.PayloadBounds
import P2P.Peer.InputBuffer
import P2P.Peer.MakeChunks
import P2P.Peer.Integrity
import P2P.Peer.MainLoopRuns
import P2P.Peer.OneChunk
import P2P.Peer.Nodes
