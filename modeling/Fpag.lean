import Fpag.Container.SpscFifo
import Fpag.Container.EmptyQueue
import Fpag.Mem.ArenaSafety
import Fpag.Mem.ArenaMove
import Fpag.Mem.ArenaAgreement
import Fpag.Str.InternFull
import Fpag.Io.WriterSafety
import Fpag.Logging.FlushBarrier
import Fpag.Logging.WorkerLifecycle
import Fpag.Logging.BatchProgress
import Fpag.Logging.QueueReuse
import Fpag.Logging.FdSink
import Fpag.Logging.JsonLines
import Fpag.Logging.Snapshot
import Fpag.Debug.InBounds
import Fpag.Debug.LineReadings
import Fpag.Debug.UnitFraming
import Fpag.Debug.OffsetWidth
import Fpag.Debug.FunctionLookup
import Fpag.Debug.LineProgress
import Fpag.Debug.LegacyRanges
import Fpag.Debug.RangeLists
import Fpag.Debug.Abbreviations
import Fpag.Debug.IndirectForms
import Fpag.Debug.TraceDocument
import Fpag.Arg.PartialParse
import Fpag.Str.InternReserve
import Fpag.Mem.LanePartition
import Fpag.Mem.LaneRefusal
import Fpag.Debug.Leb128
import Fpag.Io.Commits
import Fpag.Logging.RecordCommits
import Fpag.Io.WriterMove
import Fpag.Arg.Spellings
import Fpag.Arg.PartialSplit
import Fpag.Base.UnionLifetimes
import Fpag.Base.VecIndices
import Fpag.Arg.Defaults
import Fpag.Str.SameName
import Fpag.Base.Rounding
import Fpag.Debug.StackTrace
import Fpag.Arg.Converter
import Fpag.Logging.Returns
import Fpag.Debug.ObjectFile
import Fpag.Debug.Symbolicator
import Fpag.Logging.CompositeSink
import Fpag.Debug.Profiler
import Fpag.Container.MappedQueue
import Fpag.Debug.RawTrace
