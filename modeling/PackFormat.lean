import PackFormat.Main
import PackFormat.Pack
import PackFormat.Proofs.RoundTrip
import PackFormat.Proofs.Safety
import PackFormat.Proofs.HeaderWriter
import PackFormat.Proofs.Kraft
import PackFormat.Proofs.Truncation
import PackFormat.Proofs.ReadFaults
import PackFormat.Proofs.Accounting
import PackFormat.Proofs.Huffman.Optimal
import PackFormat.Proofs.Huffman.Depth
import PackFormat.Proofs.Slots
import PackFormat.Proofs.WriteFaults
import PackFormat.Proofs.Reach
import PackFormat.Proofs.Packing
import PackFormat.Proofs.Reader
import PackFormat.Proofs.WriterCalls
import PackFormat.Proofs.KeptTree
import PackFormat.Proofs.Streaming
import PackFormat.Proofs.ReadAhead
import PackFormat.Proofs.CommandLine.Run
