import IcsLabs.CText
import IcsLabs.ByteWords
import IcsLabs.Memory
import IcsLabs.Runs
import IcsLabs.Triples
import IcsLabs.Isa
import IcsLabs.IsaFetch
import IcsLabs.Seq
import IcsLabs.SeqRefines
import IcsLabs.Psim
import IcsLabs.PsimStages
import IcsLabs.PsimModes
import IcsLabs.PsimRefines
import IcsLabs.Y64Sim
import IcsLabs.IsaAgreement
import IcsLabs.Y64Flags
import IcsLabs.Y64Faults
import IcsLabs.Y64Memory
import IcsLabs.Y64Locals
import IcsLabs.Y86Code
import IcsLabs.Ncopy
import IcsLabs.Lru
import IcsLabs.Csim
import IcsLabs.CsimLru
import IcsLabs.CsimCounts
import IcsLabs.CsimBlocks
import IcsLabs.CsimTrace
import IcsLabs.BitFacts
import IcsLabs.Bits
import IcsLabs.BitsTests
import IcsLabs.JobTable
import IcsLabs.JobNumbers
import IcsLabs.Shell
import IcsLabs.ShellRuns
import IcsLabs.ShellNews
import IcsLabs.ShellPointers
import IcsLabs.Asm
import IcsLabs.AsmText
import IcsLabs.AsmCodec
import IcsLabs.Binfile
import IcsLabs.Listing
import IcsLabs.Symbols
import IcsLabs.AsmLines
import IcsLabs.Relocation
import IcsLabs.Alignment
import IcsLabs.SymbolNames
import IcsLabs.LineTokens
import IcsLabs.LineGrammar
import IcsLabs.Follows
import IcsLabs.AsmReads
import IcsLabs.Parseline
import IcsLabs.Commands
import IcsLabs.Transpose
import IcsLabs.TransposeRuns
import IcsLabs.Proxy
import IcsLabs.ProxyForward
import IcsLabs.ProxyEnds
import IcsLabs.ProxyUris
import IcsLabs.ProxyCloses
import IcsLabs.ProxyBuffers
import IcsLabs.BoundaryTags
import IcsLabs.Mm
import IcsLabs.MmTiles
import IcsLabs.MmBlocks
import IcsLabs.MmCalls
import IcsLabs.MmRealloc
import IcsLabs.MmGeneral
import IcsLabs.MmRefusal
import IcsLabs.MmSizes
import IcsLabs.MmFirst
import IcsLabs.MmModes
import IcsLabs.MmModeCalls
import IcsLabs.MmRuns
import IcsLabs.MmModeRuns
import IcsLabs.MmPayloads
