import UdeBench.Ag.Proofs.DataProcess
import UdeBench.Ag.Proofs.Encoders
import UdeBench.Ag.Proofs.Frame
import UdeBench.Ag.Proofs.Labels
import UdeBench.Ag.Proofs.Lifetime
import UdeBench.Ag.Proofs.LoadStore
import UdeBench.Ag.Proofs.Meaning
import UdeBench.Ag.Proofs.Neon
import UdeBench.Bench.Proofs.Table
import UdeBench.Npr.Proofs.Balance
import UdeBench.Npr.Proofs.Dlist
import UdeBench.Npr.Proofs.FreeChain
import UdeBench.Npr.Proofs.Recovery
import UdeBench.Npr.Proofs.Rounds
import UdeBench.Npr.Proofs.SinglyList
import UdeBench.Npr.Proofs.SymbolFini
import UdeBench.Npr.Proofs.Symtab
import UdeBench.Npr.Proofs.Texts
import UdeBench.Npr.Proofs.Varray
import UdeBench.Npr.Proofs.Symtabs
import UdeBench.Npr.Proofs.Names
import UdeBench.Npr.Proofs.DlistLoop
import UdeBench.Npr.Proofs.Coro
import UdeBench.Npr.Proofs.HeapDump
import UdeBench.Npr.Proofs.BitOps
