import OwnOS.PFAllocator.Model

/-!
# The kernel heap (`kmalloc.h`, `kmalloc.cpp`)

The heap is one arena of 0x20 pages. Each block begins with a `kmalloc_header`: the pointer `next`
to the following header, the last one's to `base`, and the `size` of the block with its header. A
`kmalloc_header_ptr` carries in bit 0 whether the block it points at is in use. The memory is a map
from byte addresses to 32-bit words; the header at `p` is the words at `p` and `p + 4`.

Comparisons of two `kmalloc_header_ptr` go through `operator u32_t`, which strips the bit, as does
every access through `->`.

The loops take a bound. They depend on the pointer in hand alone, which has `2^32` values, so a loop
that takes more turns never ends: running out is `Halt.hang`. The interrupt flag is left out.
-/

namespace OwnOS

/-- The memory, and the two globals of `kmalloc.cpp`. -/
structure Kmalloc where
  mem : UInt32 → UInt32
  base : UInt32
  nextFree : UInt32

namespace Kmalloc

/-- `reset_ptr`, `operator u32_t`: the pointer without its used bit. -/
def resetPtr (p : UInt32) : UInt32 := p &&& ~~~1

/-- `is_used`. -/
def isUsed (p : UInt32) : Bool := p &&& 1 ≠ 0

/-- `set_used`. -/
def setUsed (p : UInt32) (used : Bool) : UInt32 := if used then p ||| 1 else p &&& ~~~1

/-- `sizeof(kmalloc_header)`. -/
def headerSize : UInt32 := 8

/-- `KMALLOC_ALIGN`, `sizeof(void *)`. -/
def kmallocAlign : UInt32 := 4

/-- The size of the arena, `0x1000*0x20`. -/
def arenaSize : UInt32 := 0x20000

/-- A bound no loop over pointers that ends can exceed. -/
def pointers : Nat := 4294967296

/-- `p->next`. -/
def next (h : Kmalloc) (p : UInt32) : UInt32 := h.mem (resetPtr p)

/-- `p->size`. -/
def size (h : Kmalloc) (p : UInt32) : UInt32 := h.mem (resetPtr p + 4)

/-- `*addr = v`. -/
def store (h : Kmalloc) (addr v : UInt32) : Kmalloc :=
  { h with mem := Function.update h.mem addr v }

/-- `p->next = v`. -/
def setNext (h : Kmalloc) (p v : UInt32) : Kmalloc := h.store (resetPtr p) v

/-- `p->size = v`. -/
def setSize (h : Kmalloc) (p v : UInt32) : Kmalloc := h.store (resetPtr p + 4) v

/-- `init_kmalloc` (`kmalloc.cpp:9-17`). -/
def initKmalloc (pfa : PFAllocator) (mem : UInt32 → UInt32) : Res (PFAllocator × Kmalloc) := do
  let (pfa, aligned) ← pfa.allocChunk 0x20
  let h : Kmalloc := ⟨mem, aligned, aligned⟩
  let h := h.setNext h.base h.base
  let h := h.setSize h.nextFree arenaSize
  .ok (pfa, h.setSize h.base arenaSize)

/-- The size of a block for a request: with its header, rounded up. -/
def roundSize (size : UInt32) : UInt32 := (size + headerSize + kmallocAlign - 1) &&& (-kmallocAlign)

/-- `do { p = p->next; } while (p.is_used());` (`kmalloc.cpp:45-47`). -/
def nextUnused : Nat → Kmalloc → UInt32 → Res UInt32
  | 0, _, _ => .error .hang
  | fuel + 1, h, p =>
    let p := h.next p
    if isUsed p then nextUnused fuel h p else .ok p

/-- The search of `kmalloc` (`kmalloc.cpp:27-48`): the first unused header from `p` on with enough
room, up to `base`. -/
def search : Nat → Kmalloc → UInt32 → UInt32 → Res UInt32
  | 0, _, _, _ => .error .hang
  | fuel + 1, h, rsize, p =>
    if rsize ≤ h.size p then .ok p
    else do
      let p ← nextUnused pointers h p
      if resetPtr p ≠ resetPtr h.base then search fuel h rsize p
      else .error (.panic "malloc error \n")

/-- Taking `rsize` bytes off the end of the block `p` (`kmalloc.cpp:29-41`). -/
def carve (h : Kmalloc) (p rsize : UInt32) : Kmalloc × UInt32 :=
  let h := { h with nextFree := p }
  let p := setUsed (resetPtr p + h.size h.nextFree - rsize) true
  let h := h.setNext p (h.next h.nextFree)
  let h := h.setSize p rsize
  let h := h.setNext h.nextFree p
  let h := h.setSize h.nextFree (h.size h.nextFree - rsize)
  (h, resetPtr p + headerSize)

/-- `kmalloc` (`kmalloc.cpp:19-53`). `size < 0` is false of a `size_t`. -/
def kmalloc (h : Kmalloc) (size : UInt32) : Res (Kmalloc × UInt32) := do
  let rsize := roundSize size
  let p ← search pointers h rsize h.nextFree
  .ok (h.carve p rsize)

/-- The loop of `kfree` (`kmalloc.cpp:71-73`): the header before `freed`, and the pointer it
holds. -/
def findPrev : Nat → Kmalloc → UInt32 → UInt32 → Res (UInt32 × UInt32)
  | 0, _, _, _ => .error .hang
  | fuel + 1, h, freed, p =>
    let tp := h.next p
    if resetPtr tp ≠ resetPtr freed then findPrev fuel h freed tp else .ok (p, tp)

/-- `p->size += q->size; p->next = q->next;`: the block `p` takes in `q` behind it. -/
def concat (h : Kmalloc) (p q : UInt32) : Kmalloc :=
  let h := h.setSize p (h.size p + h.size q)
  h.setNext p (h.next q)

/-- `kfree` (`kmalloc.cpp:56-104`). -/
def kfree (h : Kmalloc) (addr : UInt32) : Res Kmalloc := do
  let freed := addr - headerSize
  let (prev, tp) ← findPrev pointers h freed h.base
  let next := h.next tp
  let isPrevUsed := if resetPtr freed = resetPtr h.base then true else isUsed prev
  let isNextUsed := if resetPtr next = resetPtr h.base then true else isUsed next
  if !isPrevUsed then
    let h := h.concat prev freed
    if !isNextUsed then .ok (h.concat prev next) else .ok h
  else if !isNextUsed then
    let h := h.setNext prev (setUsed (h.next prev) false)
    .ok (h.concat freed next)
  else
    .ok (h.setNext prev (setUsed freed false))

end Kmalloc

end OwnOS
