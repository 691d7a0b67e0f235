/-
`npr_heap_dump`: what it prints of a heap, and its assertions.

It goes through the list of pages and then through the free list, prints a
line for every node, and asserts of each that its successor points back to
it. The lines are records here; the header lines, which are the same for
every heap but for its address, are not there. A size is printed as an
`int`.
-/
import UdeBench.Npr.Heap

namespace UdeBench.Npr.FirstFit

open Spans ByteMem

end UdeBench.Npr.FirstFit
