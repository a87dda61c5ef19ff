import LLM42.Batch.Alignment
import LLM42.Cache.RadixEvents
import LLM42.Cache.RadixSalt
import LLM42.Delivery.ExactlyOnce
import LLM42.Determinism.Prefix
import LLM42.Detokenizer.Sessions
import LLM42.Disaggregation.PreAlloc
import LLM42.Disaggregation.Transfer
import LLM42.Gateway.BreakerRuns
import LLM42.Gateway.HashRing
import LLM42.Gateway.PolicyChoice
import LLM42.Gateway.PrefixTreeThreads
import LLM42.Parser.ReasoningChunks
import LLM42.Request.StopChecks
import LLM42.Scheduler.AbortOne
import LLM42.Scheduler.Bookkeeping
import LLM42.Scheduler.LogprobDelivery
import LLM42.Scheduler.Reserved
import LLM42.Scheduler.Resume
import LLM42.Scheduler.SharedPrefix
import LLM42.Scheduler.TokenState
import LLM42.Serving.Admission
import LLM42.Serving.Retract
import LLM42.Speculative.Ngram
import LLM42.Serving.IgnoreEos
import LLM42.Gateway.BucketWaiters
import LLM42.Speculative.GrammarMask
