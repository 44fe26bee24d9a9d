import T2sz.Library.Numeral
import T2sz.Library.Iteration
import T2sz.Library.Blocking
import T2sz.Library.Memory
import T2sz.Library.Slicing
import T2sz.Library.Cutting
import T2sz.Libc
import T2sz.Compressor
import T2sz.Header
import T2sz.CompressorSpec
import T2sz.Element
import T2sz.Pax
import T2sz.Numerals
import T2sz.Checksum
import T2sz.FileInput
import T2sz.Scan
import T2sz.Archive
import T2sz.StdinTar
import T2sz.RawInput
import T2sz.Chunking
import T2sz.FileRefinement
import T2sz.FileProgress
import T2sz.FileBounds
import T2sz.StdinFrames
import T2sz.StdinEntry
import T2sz.StdinBounds
import T2sz.StdinRounds
import T2sz.StdinRefinement
import T2sz.FrameContents
import T2sz.Truncation
import T2sz.PaxWalk
import T2sz.PaxSpec
import T2sz.PaxBounds
import T2sz.ArchiveScan
import T2sz.Agreement
import T2sz.SeekTable
import T2sz.SeekTableSpec
import T2sz.Framing
import T2sz.RawFrames
import T2sz.Zstd
import T2sz.FrameLog
import T2sz.RandomAccess
import T2sz.Process
import T2sz.OutputFile
import T2sz.BlockSize
import T2sz.SizeField
import T2sz.PledgeExactness
import T2sz.PledgeCoverage
import T2sz.Pledges
import T2sz.FileSums
import T2sz.FileBlocks
import T2sz.FrameSizes
import T2sz.StdinSums
import T2sz.Library.Getopt
import T2sz.Library.Files
import T2sz.Library.Stdio
import T2sz.Library.Multiframe
import T2sz.Library.Earliest
import T2sz.Library.Growing
import T2sz.Library.Descriptors
import T2sz.CommandLine
import T2sz.CommandLineSpec
import T2sz.Main
import T2sz.MainFiles
import T2sz.Decompression
import T2sz.RoundTrip
import T2sz.Interruption
import T2sz.OutputLayout
import T2sz.WithoutTable
import T2sz.Unclamped
import T2sz.MostFrames
import T2sz.Stability
import T2sz.ArchiveStream
import T2sz.Fuzzing
import T2sz.MutatedInput
import T2sz.Acceptance
import T2sz.Harness
import T2sz.Descriptors
