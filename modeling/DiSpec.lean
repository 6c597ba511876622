import DiSpec.Lib.Autoregressive
import DiSpec.KV.Fork
import DiSpec.KV.PrefixKeys
import DiSpec.KV.Reserved
import DiSpec.KV.PrefixHits
import DiSpec.KV.Eviction
import DiSpec.KV.ForkIds
import DiSpec.KV.Rollback
import DiSpec.KV.TransferShapes
import DiSpec.KV.TransferAffine
import DiSpec.KV.ExportImport
import DiSpec.Engine.Causal
import DiSpec.Engine.Transparency
import DiSpec.Engine.Packing
import DiSpec.Engine.Pressure
import DiSpec.Engine.TritonDecode
import DiSpec.Engine.GraphHistory
import DiSpec.Engine.PrefixWork
import DiSpec.Engine.FusedRunners
import DiSpec.Sched.Exhaustion
import DiSpec.Sched.Slots
import DiSpec.Sched.Sampled
import DiSpec.Sched.Transparency
import DiSpec.Sched.Standing
import DiSpec.Sched.Outputs
import DiSpec.Sched.Retry
import DiSpec.Sched.Alignment
import DiSpec.Sched.Progress
import DiSpec.Sched.Supplied
import DiSpec.Sched.Budget
import DiSpec.Sched.Tenure
import DiSpec.Sched.HeadOfLine
import DiSpec.Sched.Priority
import DiSpec.Sched.Completion
import DiSpec.Sched.JointLaw
import DiSpec.Spec.Greedy
import DiSpec.Spec.Lossless
import DiSpec.Spec.Footprint
import DiSpec.Spec.Speedup
import DiSpec.Nucleus
import DiSpec.Stopping
import DiSpec.Workers.Disaggregated
import DiSpec.Workers.Shutdown
import DiSpec.Workers.Escalation
import DiSpec.Workers.Leaks
import DiSpec.Transport.Tcp
import DiSpec.Router.App
import DiSpec.Router.Autoscale
import DiSpec.Router.Service
import DiSpec.Router.FirstTokens
import DiSpec.Router.Deployed
import DiSpec.Router.Threads
