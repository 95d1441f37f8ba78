import BurstPoolNode.System
import BurstPoolNode.RateLimiter
import BurstPoolNode.RateLimiter.Window
import BurstPoolNode.RateLimiter.Race
import BurstPoolNode.Buffer
import BurstPoolNode.Burstmath
import BurstPoolNode.Burstmath.Plot
import BurstPoolNode.Burstmath.Lanes
import BurstPoolNode.Text
import BurstPoolNode.Session
import BurstPoolNode.DeadlineRequestHandler
import BurstPoolNode.Session.Isolation
import BurstPoolNode.DeadlineRequestHandler.Contention
import BurstPoolNode.Rounds
import BurstPoolNode.Burstmath.Poc
import BurstPoolNode.DeadlineRequestHandler.Batch
import BurstPoolNode.Node
import BurstPoolNode.Node.Divisor
import BurstPoolNode.Node.Answers
import BurstPoolNode.Text.Digits
import BurstPoolNode.Wallet.Polling
import BurstPoolNode.Wallet.Signatures
import BurstPoolNode.Wallet.Tip
import BurstPoolNode.Wallet.Served
import BurstPoolNode.Wallet.Publishing
import BurstPoolNode.Node.Scoops
import BurstPoolNode.Improvements
import BurstPoolNode.DeadlineRequestHandler.Schedules
import BurstPoolNode.NodeComClient
import BurstPoolNode.NodeComClient.Failures
import BurstPoolNode.Sql
import BurstPoolNode.Wallet.Recipients
import BurstPoolNode.Config
import BurstPoolNode.Node.Routes
import BurstPoolNode.Machine
import BurstPoolNode.TokenBucket
import BurstPoolNode.RateLimiter.Refinement
import BurstPoolNode.DeadlineRequestHandler.Timer
import BurstPoolNode.Session.Segments
import BurstPoolNode.Wallet.Caching
import BurstPoolNode.Text.Numerals
import BurstPoolNode.Numbers
import BurstPoolNode.Blocks
import BurstPoolNode.Shabal
import BurstPoolNode.Mshabal
import BurstPoolNode.Mshabal.Lanes
import BurstPoolNode.Mshabal.Streams
import BurstPoolNode.Mshabal.Digests
import BurstPoolNode.Mshabal.Deadlines
import BurstPoolNode.ConcurrentQueue
import BurstPoolNode.ConcurrentQueue.Producer
import BurstPoolNode.ConcurrentQueue.Calls
import BurstPoolNode.ConcurrentQueue.Consumer
import BurstPoolNode.ConcurrentQueue.Progress
import BurstPoolNode.Node.Truth
import BurstPoolNode.Node.Completion
