import PhpRuntime.Hash.Refinement
import PhpRuntime.Gc.Exactness
import PhpRuntime.Date.EpochSeconds
import PhpRuntime.Date.Normalize
import PhpRuntime.Date.SpecialWeekday
import PhpRuntime.Date.Difference
import PhpRuntime.Date.Jewish
import PhpRuntime.Date.SerialDayInverse
import PhpRuntime.Spl.HeapRuns
import PhpRuntime.Spl.DllistRuns
import PhpRuntime.Streams.Temp
import PhpRuntime.Streams.FilterFlush
import PhpRuntime.Streams.LineSplits
import PhpRuntime.Vcwd.Expand
import PhpRuntime.Filters.Decoding
import PhpRuntime.Fastcgi.Streams
import PhpRuntime.Fastcgi.Bounds
import PhpRuntime.Output.Runs
import PhpRuntime.Strings.Snapshots
import PhpRuntime.Objects.Runs
import PhpRuntime.Fastcgi.Params
import PhpRuntime.Fastcgi.Body
import PhpRuntime.Fastcgi.Management
import PhpRuntime.Hash.Symtable
import PhpRuntime.Hash.Merge
import PhpRuntime.Hash.Reentrant
import PhpRuntime.Filters.Base64Decode
import PhpRuntime.Text.WordwrapPaths
import PhpRuntime.Text.StrReplaceRuns
import PhpRuntime.Text.StrtrArray
import PhpRuntime.Alloc.FreeListRuns
import PhpRuntime.Text.BaseConversion
import PhpRuntime.Text.Similar
import PhpRuntime.Text.Levenshtein
import PhpRuntime.Text.Base64Strict
import PhpRuntime.Text.Base64RoundTrip
import PhpRuntime.Text.UuencodeRoundTrip
import PhpRuntime.Text.SlashesRoundTrip
import PhpRuntime.Text.Explode
import PhpRuntime.Text.NaturalOrder
import PhpRuntime.Text.VersionLaws
import PhpRuntime.Alloc.BestFit
import PhpRuntime.Html.NoDoubleEncode
import PhpRuntime.Json.Runs
import PhpRuntime.Text.QuotPrintLines
import PhpRuntime.Text.UudecodeBounds
import PhpRuntime.Url.Compose
import PhpRuntime.Sort.Qsort
import PhpRuntime.Request.Protected
import PhpRuntime.Text.Shell
import PhpRuntime.Text.StripTags
import PhpRuntime.Text.SprintfBounds
import PhpRuntime.Validate.IpRanges
import PhpRuntime.Request.Query
