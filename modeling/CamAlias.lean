import CamAlias.Compressor.Equality
import CamAlias.Compressor.Repetition
import CamAlias.Tracer.Iterations
import CamAlias.Tracer.CallTable
import CamAlias.Tracer.BitSetRuns
import CamAlias.Lexer.BlockReader
import CamAlias.Lexer.DependencePairs
import CamAlias.RoundTrip.LoopTrace
import CamAlias.RoundTrip.Passes
import CamAlias.RoundTrip.Readable
import CamAlias.RoundTrip.Sharers
import CamAlias.RoundTrip.PatternEquality
import CamAlias.RoundTrip.Attribution
import CamAlias.RoundTrip.CamRuns
import CamAlias.RoundTrip.Alignment
import CamAlias.Analyser.Merge
import CamAlias.Analyser.Overlap
import CamAlias.Analyser.RangeLookup
import CamAlias.Memory.Slice
import CamAlias.Memory.Chunk
import CamAlias.Memory.RoundTrip
import CamAlias.Memory.BaseDelta
import CamAlias.Storage.AllocatorRuns
import CamAlias.Dependence.DynamicGcd
import CamAlias.Dependence.ExtendedEuclid
import CamAlias.Dependence.CommonAddresses
import CamAlias.Dependence.IsAlias
import CamAlias.Dependence.BruteForce
import CamAlias.Dependence.PairMenu
import CamAlias.Dependence.OverlapIterator
