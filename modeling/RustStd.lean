import RustStd.Collections.BTreeRange
import RustStd.Collections.BinaryHeap
import RustStd.Collections.LinkedListCursorRuns
import RustStd.Collections.LinkedListRuns
import RustStd.Collections.VecDequeDrain
import RustStd.Collections.VecDequeRuns
import RustStd.Fmt.IntExpSpec
import RustStd.Fmt.IntParse
import RustStd.Hash.Sip
import RustStd.Io.BufReaderRuns
import RustStd.Io.BufWriterRuns
import RustStd.Iter.FlattenOneShot
import RustStd.Iter.RangeInclusiveSpec
import RustStd.Iter.StepBySpec
import RustStd.Iter.ZipSpec
import RustStd.Net.TextRoundTrip
import RustStd.Num.BignumSpec
import RustStd.Num.DecimalShiftExact
import RustStd.Num.Decode
import RustStd.Num.HalfPrecision
import RustStd.Num.SlowDecimal
import RustStd.Path.SetExtension
import RustStd.Path.WindowsComponentsEnds
import RustStd.Slice.ChunkItersSpec
import RustStd.Slice.IsAscii
import RustStd.Slice.RotateGcd
import RustStd.Sort.SelectUnwinds
import RustStd.Sort.UnstableSort
import RustStd.Str.CaseMapping
import RustStd.Str.CharCount
import RustStd.Str.CharSearcherRuns
import RustStd.Str.Contains
import RustStd.Str.Escape
import RustStd.Str.RemoveMatches
import RustStd.Str.Utf8Chunks
import RustStd.Str.Wtf8Lossy
import RustStd.Sync.ArcUnwind
import RustStd.Sync.MpmcArrayDelivers
import RustStd.Sync.OnceSafety
import RustStd.Sync.RwLockFutexWakeups
import RustStd.Sys.WindowsArgs
import RustStd.Time.TryFromSecs
import RustStd.Vec.DedupBy
import RustStd.Vec.ExtractIf
import RustStd.Vec.TryReserve
