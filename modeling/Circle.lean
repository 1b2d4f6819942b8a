import Circle.Queue.Transfer
import Circle.Queue.Limits
import Circle.Queue.Checkpoint
import Circle.Queue.CInterface
import Circle.TreeWidth
import Circle.ReduceBuffer
import Circle.Protocol.Conservation
import Circle.Protocol.PayloadSends
import Circle.Protocol.Blackening
import Circle.Protocol.Termination
import Circle.Protocol.AbortAgreement
import Circle.Protocol.RingTermination
import Circle.Protocol.TreeTermination
import Circle.Protocol.Reductions
import Circle.Protocol.Background
import Circle.Protocol.Flood
import Circle.Protocol.Drained
import Circle.Protocol.Restart
import Circle.Protocol.Completion
import Circle.Protocol.RingAbort
import Circle.Protocol.Processing
import Circle.Protocol.MessageCount
import Circle.Protocol.AbortOutcome
