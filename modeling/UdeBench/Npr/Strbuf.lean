/-
The string buffer of npr/strbuf.c, on an LP64 target.

# Representation

`buflen` and `cur` are `int`s, which wrap around and are extended by
their sign where a `size_t` is expected. `buf` is null until the first
text needs room.

# vsnprintf

What a format and its arguments come to is a parameter of the call
(`Formatted`): a text, or a failure, whose value is negative and whose
output may be anything that fits. As C99 has it, a text is written up to
the size given, with a NUL behind it, nothing is written where that size
is zero, and the length of the whole text is returned. `npr_strbuf_vprintf`
calls it twice when the text does not fit, and each of the two calls may
fail.

# Arguments

A text is a list of bytes beside the memory, so it does not lie in the
buffer: that of `npr_strbuf_puts(b, npr_strbuf_c_str(b))` would, and is
read after `reserve` may have freed it.

`va_copy`, the `_WIN32` branches and `npr_strbuf_fini` are left out.
-/
import UdeBench.Lib.Objects

namespace UdeBench.Npr.StringBuffer

open Objects (Ptr Cell Byte Answers Fault)

/-- An `int`. -/
abbrev Word := BitVec 32

/-- A `size_t`. -/
abbrev Size := BitVec 64

/-- `struct npr_strbuf`. -/
structure Strbuf where
  buflen : Word
  cur : Word
  buf : Option Ptr
deriving DecidableEq, Repr

/-- The memory, and the buffer. -/
structure Sys where
  mem : Objects.Mem
  sb : Strbuf

/-- `npr_strbuf_init`. -/
def strbufInit (m : Objects.Mem) : Sys := ⟨m, ⟨0, 0, none⟩⟩

-- ================================================================ appending

section
variable (answers : Answers)

/-- `reserve`. -/
def reserve (s : Sys) (len : Word) : Except Fault Sys :=
  let d : Size := (s.sb.buflen - s.sb.cur).signExtend 64
  if d < len.signExtend 64 then do
    let req : Size := (s.sb.buflen + len).signExtend 64
    let alloc := req * 2
    let (m, buf) ← Objects.realloc answers s.mem s.sb.buf alloc.toNat
    .ok ⟨m, { s.sb with buflen := alloc.setWidth 32, buf := some buf }⟩
  else .ok s

end

/-- Bytes stored at `&buf->buf[buf->cur]`. -/
def storeAtCur (s : Sys) (cs : List Cell) : Except Fault Sys := do
  let m ← Objects.write s.mem s.sb.buf s.sb.cur.toInt cs
  .ok { s with mem := m }

/-- `append`. -/
def append (s : Sys) (c : Word) : Except Fault Sys := do
  let s ← storeAtCur s [some (c.setWidth 8)]
  .ok { s with sb := { s.sb with cur := s.sb.cur + 1 } }

/-- `strlen`: what is behind the list is the end of the string. -/
def strlen (s : List Byte) : Nat := (s.takeWhile (· ≠ 0)).length

section
variable (answers : Answers)

/-- `npr_strbuf_putc`. -/
def strbufPutc (s : Sys) (c : Word) : Except Fault Sys := do
  let s ← reserve answers s 1
  append s c

/-- `npr_strbuf_puts`: the length is a `size_t`, and the `len` of
`reserve` an `int`. -/
def strbufPuts (s : Sys) (str : List Byte) : Except Fault Sys := do
  let len := BitVec.ofNat 64 (strlen str)
  let s ← reserve answers s (len.setWidth 32)
  let s ← storeAtCur s ((str.take len.toNat).map some)
  .ok { s with sb := { s.sb with cur := s.sb.cur + len.setWidth 32 } }

/-- `npr_strbuf_putsn`: the string must have the bytes. -/
def strbufPutsn (s : Sys) (str : List Byte) (len : Word) :
    Except Fault Sys := do
  let s ← reserve answers s len
  if str.length < (len.signExtend 64).toNat then .error .outOfBounds
  else
    let s ← storeAtCur s ((str.take (len.signExtend 64).toNat).map some)
    .ok { s with sb := { s.sb with cur := s.sb.cur + len } }

end

-- =============================================================== formatting

/-- What a call of `vsnprintf` comes to. -/
inductive Formatted
  | text (t : List Byte)
  | failure (ret : Word) (junk : List Cell)
deriving DecidableEq, Repr

/-- What is written into room for `n` bytes. -/
def Formatted.output (n : Size) : Formatted → List Cell
  | text t =>
      if n = 0 then [] else (t.take (n.toNat - 1)).map some ++ [some 0]
  | failure _ junk => junk.take n.toNat

/-- What is returned. -/
def Formatted.ret : Formatted → Word
  | text t => BitVec.ofNat 32 t.length
  | failure ret _ => ret

/-- `vsnprintf(buf->buf + buf->cur, n, ...)`. -/
def vsnprintf (s : Sys) (n : Size) (f : Formatted) :
    Except Fault (Sys × Word) := do
  let s ← storeAtCur s (f.output n)
  .ok (s, f.ret)

section
variable (answers : Answers)

/-- `npr_strbuf_vprintf`, and `npr_strbuf_printf`: what its two calls of
`vsnprintf` come to. -/
def strbufVprintf (s : Sys) (first second : Formatted) :
    Except Fault Sys := do
  let rem := s.sb.buflen - s.sb.cur
  let (s, len) ← vsnprintf s (rem.signExtend 64) first
  if len.slt rem then
    .ok { s with sb := { s.sb with cur := s.sb.cur + len } }
  else
    let s ← reserve answers s (len + 1)
    let (s, _) ← vsnprintf s ((len + 1).signExtend 64) second
    .ok { s with sb := { s.sb with cur := s.sb.cur + len } }

-- ================================================================== strings

/-- `npr_strbuf_c_str`. -/
def strbufCStr (s : Sys) : Except Fault (Sys × Option Ptr) := do
  let s ← reserve answers s 1
  let s ← storeAtCur s [some 0]
  .ok (s, s.sb.buf)

/-- `npr_strbuf_strdup`. -/
def strbufStrdup (s : Sys) : Except Fault (Sys × Option Ptr) := do
  let len : Size := s.sb.cur.signExtend 64
  let (m, ret) ← Objects.malloc answers s.mem (len + 1).toNat
  let m ← Objects.memcpy m (some ret) 0 s.sb.buf 0 len.toNat
  let m ← Objects.write m (some ret) len.toNat [some 0]
  .ok ({ s with mem := m }, some ret)

end

-- ===================================================================== runs

/-- What a program does with a buffer. -/
inductive StrCall
  | putc (c : Word)
  | puts (str : List Byte)
  | putsn (str : List Byte) (len : Word)
  | printf (first second : Formatted)
  | cStr
  | strdup
deriving DecidableEq, Repr

/-- Whether a `printf` meets a failure of `vsnprintf`: of the first call,
or of the second, which is made when the text and its NUL do not fit. -/
def StrCall.fails (sb : Strbuf) : StrCall → Bool
  | printf (.failure _ _) _ => true
  | printf (.text t) (.failure _ _) =>
      !(BitVec.ofNat 32 t.length).slt (sb.buflen - sb.cur)
  | _ => false

/-- The text that a call is given to append. -/
def StrCall.text : StrCall → List Byte
  | putc c => [c.setWidth 8]
  | puts str => str.takeWhile (· ≠ 0)
  | putsn str len => str.take len.toNat
  | printf (.text t) _ => t
  | _ => []

/-- The calls that return a string. -/
def StrCall.makesString : StrCall → Bool
  | cStr => true
  | strdup => true
  | _ => false

/-- A buffer in use: the texts appended, and the string that the last
call returned. -/
structure StrState where
  sys : Sys
  text : List Byte
  ret : Option Ptr

section
variable (answers : Answers)

/-- The function of a call, and what it returns. -/
def StrCall.call (s : Sys) : StrCall → Except Fault (Sys × Option Ptr)
  | putc c => do
      let s ← strbufPutc answers s c
      .ok (s, none)
  | puts str => do
      let s ← strbufPuts answers s str
      .ok (s, none)
  | putsn str len => do
      let s ← strbufPutsn answers s str len
      .ok (s, none)
  | printf first second => do
      let s ← strbufVprintf answers s first second
      .ok (s, none)
  | cStr => strbufCStr answers s
  | strdup => strbufStrdup answers s

/-- One call. -/
def StrCall.exec (s : StrState) (c : StrCall) : Except Fault StrState := do
  let (sys, ret) ← c.call answers s.sys
  .ok ⟨sys, s.text ++ if c.fails s.sys.sb then [] else c.text, ret⟩

/-- A buffer that has just been set up. -/
def strInit : StrState := ⟨strbufInit [], [], none⟩

/-- A run of calls. -/
def strRun (cs : List StrCall) : Except Fault StrState :=
  cs.foldlM (StrCall.exec answers) strInit

end

end UdeBench.Npr.StringBuffer
