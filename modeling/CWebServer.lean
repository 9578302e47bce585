import CWebServer.Lib.Records
import CWebServer.Lib.Scan
import CWebServer.Lib.Words
import CWebServer.Lib.Runs
import CWebServer.Lib.Traces
import CWebServer.Lib.Ring
import CWebServer.Lib.Simulation
import CWebServer.Lib.Ownership
import CWebServer.Lib.Framing
import CWebServer.Lib.Nesting
import CWebServer.Lib.Markup
import CWebServer.Lib.Base64
import CWebServer.Lib.Der
import CWebServer.Lib.Links
import CWebServer.Lib.Memory
import CWebServer.Lib.LittleEndian
import CWebServer.Lib.Align
import CWebServer.Lib.Blocks
import CWebServer.Lib.KeyCache
import CWebServer.Lib.BitField
import CWebServer.Lib.MixedRadix
import CWebServer.Lib.Occurrences
import CWebServer.Lib.Terminated
import CWebServer.Lib.Components
import CWebServer.Lib.Checked
import CWebServer.Lib.XorShift
import CWebServer.Str
import CWebServer.Find
import CWebServer.Http
import CWebServer.HttpFields
import CWebServer.HttpSound
import CWebServer.HeaderWords
import CWebServer.RequestLine
import CWebServer.Spmc
import CWebServer.SpmcSteps
import CWebServer.SpmcSound
import CWebServer.SpmcWords
import CWebServer.Server
import CWebServer.SpmcFifo
import CWebServer.SpmcFifoSound
import CWebServer.SpmcDelivery
import CWebServer.Connection
import CWebServer.Process
import CWebServer.ProcessSound
import CWebServer.Workers
import CWebServer.Semaphore
import CWebServer.Arena
import CWebServer.ArenaSteps
import CWebServer.ArenaSound
import CWebServer.ArenaPages
import CWebServer.RecordDepth
import CWebServer.ArenaAlign
import CWebServer.ManagedAlloc
import CWebServer.Replace
import CWebServer.FixPath
import CWebServer.FixPathSound
import CWebServer.Join
import CWebServer.Html
import CWebServer.HtmlSound
import CWebServer.StartTags
import CWebServer.HtmlPages
import CWebServer.Numerals
import CWebServer.UtoaTables
import CWebServer.JoinSound
import CWebServer.HexText
import CWebServer.Builder
import CWebServer.BuilderSound
import CWebServer.Execute
import CWebServer.NumText
import CWebServer.FloatText
import CWebServer.ParseSigned
import CWebServer.ParseUnsigned
import CWebServer.Format
import CWebServer.FormatSound
import CWebServer.FormatWords
import CWebServer.FormatReads
import CWebServer.FormatSelect
import CWebServer.FormatFailed
import CWebServer.Respond
import CWebServer.TlsRecords
import CWebServer.TlsSocket
import CWebServer.TlsStream
import CWebServer.TlsHandler
import CWebServer.Pem
import CWebServer.PemSound
import CWebServer.Utf
import CWebServer.Wide
import CWebServer.Utf16
import CWebServer.FromS16
import CWebServer.Utf8Count
import CWebServer.Url
import CWebServer.UrlSound
import CWebServer.UrlTail
import CWebServer.UrlSlices
import CWebServer.UrlSlicesSound
import CWebServer.StrCopy
import CWebServer.CertFiles
import CWebServer.Certificates
import CWebServer.CertDates
import CWebServer.CertSound
import CWebServer.Asn1
import CWebServer.Asn1Sound
import CWebServer.Asn1Memory
import CWebServer.Asn1Elements
import CWebServer.CertFields
import CWebServer.SignedParts
import CWebServer.KeyFiles
import CWebServer.NullCopy
import CWebServer.HostCache
import CWebServer.Hash64
import CWebServer.Args
import CWebServer.ArgsSound
import CWebServer.ArgsMissing
import CWebServer.ArgsDuplicates
import CWebServer.ArgsNumbers
import CWebServer.ArgsLoop
import CWebServer.DenseTime
import CWebServer.MulDiv
import CWebServer.Random
import CWebServer.DllMacros
