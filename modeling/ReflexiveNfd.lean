import ReflexiveNfd.Line
import ReflexiveNfd.Dispatch
import ReflexiveNfd.DeadNonces
import ReflexiveNfd.NonceRetention
import ReflexiveNfd.FibEntries
import ReflexiveNfd.StreamTransport
import ReflexiveNfd.Reassembly
import ReflexiveNfd.Reliability
import ReflexiveNfd.RouteUpdates
import ReflexiveNfd.RibLookups
import ReflexiveNfd.RouteExpiry
import ReflexiveNfd.LpFields
import ReflexiveNfd.LinkBudget
import ReflexiveNfd.BlockParse
import ReflexiveNfd.DecoderReuse
import ReflexiveNfd.Lifetimes
import ReflexiveNfd.TrustChain
import ReflexiveNfd.ReplayPolicies
import ReflexiveNfd.AsfMeasurements
import ReflexiveNfd.ProducerAnswers
import ReflexiveNfd.ReflexiveUri
import ReflexiveNfd.InterestFilter
import ReflexiveNfd.RegexExpand
