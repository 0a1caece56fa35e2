import InpLabs.Chat.Membership
import InpLabs.Chat.Delivery
import InpLabs.Chat.Authentication
import InpLabs.Chat.Replay
import InpLabs.Chat.Fresh
import InpLabs.Chat.Framing
import InpLabs.Chat.Prompt
import InpLabs.Chat.Atomic
import InpLabs.Chat.Independent
import InpLabs.Chat.Table
import InpLabs.Chat.FilterSpec
import InpLabs.Chat.Provenance
import InpLabs.Chat.RoomNumber
import InpLabs.Chat.Listing
import InpLabs.Chat.Broadcast
import InpLabs.Udp.Safety
import InpLabs.Udp.Deadlock
import InpLabs.Udp.Retransmit
import InpLabs.Udp.Integrity
import InpLabs.Udp.Detection
import InpLabs.Udp.Chunking
import InpLabs.Udp.Termination
import InpLabs.Udp.Traffic
import InpLabs.Udp.Completion
import InpLabs.Bulk.Completion
import InpLabs.Rup.Completion
import InpLabs.Vpn.Handshake
import InpLabs.Vpn.Isolation
import InpLabs.Vpn.Transparency
import InpLabs.Binflag.Safety
import InpLabs.Web.Decoding
import InpLabs.Web.Outside
import InpLabs.Web.Splitting
import InpLabs.Web.Mime
import InpLabs.Web.Epoll
import InpLabs.Web.Threads
import InpLabs.Queen.Correct
import InpLabs.Queen.Reply
import InpLabs.Queen.Client
import InpLabs.Maze.Shortest
import InpLabs.Maze.Exploration
import InpLabs.Maze.Walk
