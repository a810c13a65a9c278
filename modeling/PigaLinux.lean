import PigaLinux.Kernel
import PigaLinux.Trace
import PigaLinux.Signature
import PigaLinux.Piga
import PigaLinux.Monitor
import PigaLinux.Runs
import PigaLinux.Refinement
import PigaLinux.Avc
import PigaLinux.Enforcement
import PigaLinux.Denials
import PigaLinux.RcuRetry
import PigaLinux.Loading
import PigaLinux.Layout
import PigaLinux.AuditOnly
import PigaLinux.Ppp
import PigaLinux.PppActions
import PigaLinux.PppCompile
import PigaLinux.PppRequests
import PigaLinux.ClassMap
import PigaLinux.ClassNumbers
import PigaLinux.Mediation
import PigaLinux.Replacement
import PigaLinux.Getsid
import PigaLinux.PppResults
import PigaLinux.PppMemory
import PigaLinux.SoleClient
import PigaLinux.Chains
import PigaLinux.SidTable
import PigaLinux.Concurrent
import PigaLinux.SidContexts
import PigaLinux.AvcCache
import PigaLinux.Conservative
import PigaLinux.RefusalRecords
import PigaLinux.Coherence
import PigaLinux.Lexing
import PigaLinux.PppLex
import PigaLinux.PppParse
import PigaLinux.PppPrint
import PigaLinux.PppCursors
import PigaLinux.PppLines
import PigaLinux.PppLayout
import PigaLinux.PppNames
import PigaLinux.PppClasses
import PigaLinux.GetsidFile
import PigaLinux.Listing
import PigaLinux.ProcInit
import PigaLinux.PrintVector
import PigaLinux.AvcReload
import PigaLinux.Toolchain
import PigaLinux.Rpn
import PigaLinux.Bytes
import PigaLinux.ExtensibleBitmap
import PigaLinux.BitmapFormat
import PigaLinux.RuleTable
import PigaLinux.RuleFormat
import PigaLinux.Conditional
import PigaLinux.ConditionalRuns
import PigaLinux.ConditionalMeaning
import PigaLinux.Constraints
import PigaLinux.ConstraintFormat
import PigaLinux.Decisions
import PigaLinux.ContextText
