import NetLab.Imperative.Loop
import NetLab.Coding.PositionXor
import NetLab.Hamming.Basic
import NetLab.Hamming.Encoding
import NetLab.Hamming.Correction
import NetLab.Coding.WordPolynomial
import NetLab.Crc.Basic
import NetLab.Crc.Division
import NetLab.Crc.Detection
import NetLab.Crc.Strings
import NetLab.Heap.Basic
import NetLab.Structures.BinaryHeap
import NetLab.Heap.Refinement
import NetLab.Heap.Runs
import NetLab.Posix.Bytes
import NetLab.Posix.Files
import NetLab.Nfs.Server
import NetLab.Nfs.Client
import NetLab.Nfs.Requests
import NetLab.Nfs.Isolation
import NetLab.Posix.Directories
import NetLab.Systems.Runs
import NetLab.Nfs.Descriptors
import NetLab.Nfs.WorkingDirectory
import NetLab.Posix.Contents
import NetLab.Nfs.Transfers
import NetLab.Posix.Text
import NetLab.ServiceServer.Basic
import NetLab.ServiceServer.Assignment
import NetLab.ServiceServer.Traffic
import NetLab.Systems.Channels
import NetLab.TicketChain.Basic
import NetLab.TicketChain.Conservation
import NetLab.TicketChain.Phantoms
import NetLab.Sockets.FailOver
import NetLab.Sockets.TrainStation
import NetLab.Coding.OnesComplement
import NetLab.Packets.Checksums
import NetLab.Posix.Layout
import NetLab.Packets.Headers
import NetLab.Packets.Datagram
import NetLab.Packets.TcpChecksum
import NetLab.Ftp.Transfer
import NetLab.Rpc.ArraySum
import NetLab.Chat.Broadcast
import NetLab.Chat.Framing
import NetLab.Mss.Registry
import NetLab.Studio.Request
import NetLab.Studio.Payments
import NetLab.Posix.Select
import NetLab.SelectServers.LogServer
import NetLab.Exam.Platforms
import NetLab.Hamming.CodeWords
import NetLab.Crc.Independence
import NetLab.Heap.Sentinel
import NetLab.Packets.InternetChecksum
import NetLab.SelectServers.MainServer
import NetLab.Packets.WordChanges
import NetLab.Nfs.Retransmission
import NetLab.Nfs.Listing
import NetLab.Nfs.Permissions
import NetLab.Mss.Accepting
import NetLab.Posix.Fields
import NetLab.Nfs.CommandLine
import NetLab.Nfs.Usage
import NetLab.Conserver.PollLoop
import NetLab.SelectServers.AllInOne
import NetLab.Packets.Dump
import NetLab.Multiserver.Requests
import NetLab.Coding.BitCount
import NetLab.Parity.Basic
import NetLab.Packets.DumpLines
import NetLab.Imperative.Arrays
import NetLab.Crc.Buffers
import NetLab.Hamming.Traced
import NetLab.Hamming.ScratchArrays
import NetLab.Hamming.FrameArrays
import NetLab.Nfs.Wire
import NetLab.Xdr.Routine
import NetLab.Systems.Refinement
import NetLab.Nfs.Remote
import NetLab.Nfs.TypedTransfers
import NetLab.Heap.Sorting
import NetLab.Coding.ErrorPatterns
import NetLab.Crc.Undetected
import NetLab.Hamming.ErrorPatterns
import NetLab.Rpc.Inline
import NetLab.Systems.Relays
import NetLab.Posix.Records
import NetLab.SelectServers.LogPipeline
import NetLab.SelectServers.LogNumbers
import NetLab.Threads.Handover
import NetLab.Studio.Permissions
import NetLab.TicketChain.Overload
import NetLab.Structures.LinkedList
import NetLab.Rpc.LinkedList
import NetLab.Packets.Injection
import NetLab.Posix.DescriptorTable
import NetLab.Superserver.Clients
import NetLab.Nfs.Terminal
import NetLab.Nfs.Store
import NetLab.Nfs.Sessions
import NetLab.SelectServers.ServedClients
import NetLab.Chat.Ordering
