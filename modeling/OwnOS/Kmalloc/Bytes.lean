import OwnOS.Kmalloc.Spec
import OwnOS.Lib.ByteMemory

/-!
# What `kfree` writes (`kmalloc.cpp:56-104`)

Headers lie between the bytes that the holders of pointers use. Here the memory of the heap is
bytes, and `kfree` the same code over it. On a ring the header words do not overlap, so the bytes
follow the words of `Kmalloc` store by store (`kfree_sim`), and what `kfree` leaves is the ring it
leaves there (`kfree_ring`).

`timerHandler` and `Timer::reset_quantum` read `p->next` after `kfree(p)`; the read gives what it
gave before.

* `kfree_headers_only`: **`kfree` returns and changes no byte but of headers**, so no payload, not
  even that of the freed block.
-/

namespace OwnOS

open Lib Lib.ByteMem Kmalloc

/-- The memory in bytes, and the two globals of `kmalloc.cpp`. -/
structure ByteHeap where
  mem : ByteMem
  base : UInt32
  nextFree : UInt32

namespace ByteHeap

/-- The word at every address. -/
def words (h : ByteHeap) : Kmalloc := ⟨h.mem.load, h.base, h.nextFree⟩

/-- `p->next`. -/
def next (h : ByteHeap) (p : UInt32) : UInt32 := h.mem.load (resetPtr p)

/-- `p->size`. -/
def size (h : ByteHeap) (p : UInt32) : UInt32 := h.mem.load (resetPtr p + 4)

/-- `p->next = v`. -/
def setNext (h : ByteHeap) (p v : UInt32) : ByteHeap := { h with mem := h.mem.store (resetPtr p) v }

/-- `p->size = v`. -/
def setSize (h : ByteHeap) (p v : UInt32) : ByteHeap :=
  { h with mem := h.mem.store (resetPtr p + 4) v }

/-- `p->size += q->size; p->next = q->next;`. -/
def concat (h : ByteHeap) (p q : UInt32) : ByteHeap :=
  let h := h.setSize p (h.size p + h.size q)
  h.setNext p (h.next q)

/-- `kfree`. The loop only reads. -/
def kfree (h : ByteHeap) (addr : UInt32) : Res ByteHeap := do
  let freed := addr - headerSize
  let (prev, tp) ← findPrev pointers h.words freed h.base
  let next := h.next tp
  let isPrevUsed := if resetPtr freed = resetPtr h.base then true else isUsed prev
  let isNextUsed := if resetPtr next = resetPtr h.base then true else isUsed next
  if !isPrevUsed then
    let h := h.concat prev freed
    if !isNextUsed then .ok (h.concat prev next) else .ok h
  else if !isNextUsed then
    let h := h.setNext prev (setUsed (h.next prev) false)
    .ok (h.concat freed next)
  else
    .ok (h.setNext prev (setUsed freed false))

/-! ## Bytes and words, store by store -/

/-- The bytes `h` and the words `w` agree at `W`, and `h` is the memory `m` outside these words. -/
structure Sim (W : Set UInt32) (m : ByteMem) (h : ByteHeap) (w : Kmalloc) : Prop where
  base : h.base = w.base
  nextFree : h.nextFree = w.nextFree
  agrees : Set.EqOn h.mem.load w.mem W
  frame : Set.EqOn h.mem m (bytesOf W)ᶜ

variable {W : Set UInt32} {m : ByteMem} {h h₂ : ByteHeap} {w : Kmalloc}
  {p q v x : UInt32} {l P Q : List Blk} {b c d f : Blk}

namespace Sim

theorem refl (W : Set UInt32) (h : ByteHeap) : Sim W h.mem h h.words :=
  ⟨rfl, rfl, fun _ _ => rfl, fun _ _ => rfl⟩

theorem next (hs : Sim W m h w) (hp : resetPtr p ∈ W) : h.next p = w.next p := hs.agrees hp

theorem size (hs : Sim W m h w) (hp : resetPtr p + 4 ∈ W) : h.size p = w.size p := hs.agrees hp

theorem setNext (hs : Sim W m h w) (hW : Apart W) (hp : resetPtr p ∈ W) (v : UInt32) :
    Sim W m (h.setNext p v) (w.setNext p v) :=
  ⟨hs.base, hs.nextFree, eqOn_store hW hp hs.agrees v, (store_frame hW hp h.mem v).trans hs.frame⟩

theorem setSize (hs : Sim W m h w) (hW : Apart W) (hp : resetPtr p + 4 ∈ W) (v : UInt32) :
    Sim W m (h.setSize p v) (w.setSize p v) :=
  ⟨hs.base, hs.nextFree, eqOn_store hW hp hs.agrees v, (store_frame hW hp h.mem v).trans hs.frame⟩

end Sim

/-- The words of the headers of the blocks. -/
def headerWords (l : List Blk) : Set UInt32 := {x | ∃ c ∈ l, x = c.addr ∨ x = c.addr + 4}

/-- A pointer to a header of the ring. -/
def Heads (l : List Blk) (p : UInt32) : Prop := ∃ c ∈ l, resetPtr p = c.addr

theorem Heads.next_mem (hp : Heads l p) : resetPtr p ∈ headerWords l := by
  obtain ⟨c, hc, heq⟩ := hp
  exact ⟨c, hc, Or.inl heq⟩

theorem Heads.size_mem (hp : Heads l p) : resetPtr p + 4 ∈ headerWords l := by
  obtain ⟨c, hc, heq⟩ := hp
  exact ⟨c, hc, Or.inr (by rw [heq])⟩

/-- **Taking in a block**, in bytes and in words. -/
theorem Sim.concat (hs : Sim (headerWords l) m h w) (hW : Apart (headerWords l)) (hp : Heads l p)
    (hq : Heads l q) : Sim (headerWords l) m (h.concat p q) (w.concat p q) := by
  have hsize := hs.setSize hW hp.size_mem (h.size p + h.size q)
  rw [hs.size hp.size_mem, hs.size hq.size_mem] at hsize
  have hnext := hsize.setNext hW hp.next_mem ((w.setSize p (w.size p + w.size q)).next q)
  rw [ByteHeap.concat, Kmalloc.concat, hs.size hp.size_mem, hs.size hq.size_mem]
  rwa [hsize.next hq.next_mem]

/-! ## The headers of a ring -/

/-- Two blocks of a ring lie apart. -/
theorem blocks_apart {k : Kmalloc} (h' : HeaderRing k l) (hc : c ∈ l) (hd : d ∈ l) (hne : c ≠ d) :
    c.addr.toNat + c.size.toNat ≤ d.addr.toNat ∨ d.addr.toNat + d.size.toNat ≤ c.addr.toNat := by
  obtain ⟨P, Q, rfl⟩ := List.append_of_mem hc
  obtain ⟨hbefore, hbehind⟩ := h'.tiles.apart
  rcases List.mem_append.mp hd with hd | hd
  · exact Or.inr (hbefore d hd)
  · exact Or.inl (hbehind d ((List.mem_cons.mp hd).resolve_left (Ne.symm hne)))

/-- The numbers of the words of a header. -/
theorem headerWord_toNat {k : Kmalloc} (h' : HeaderRing k l) (hc : c ∈ l)
    (hx : x = c.addr ∨ x = c.addr + 4) :
    x.toNat = c.addr.toNat ∨ x.toNat = c.addr.toNat + 4 := by
  rcases hx with rfl | rfl
  · exact Or.inl rfl
  · exact Or.inr (h'.addr_add_four hc)

theorem headerWords_apart {k : Kmalloc} (h' : HeaderRing k l) : Apart (headerWords l) where
  fits := by
    rintro x ⟨c, hc, hx⟩
    have := h'.header c hc
    have := (h'.addr_bounds hc).2
    have := headerWord_toNat h' hc hx
    omega
  apart := by
    rintro x ⟨c, hc, hx⟩ y ⟨d, hd, hy⟩ hne
    have hne : x.toNat ≠ y.toNat := fun e => hne (UInt32.toNat_inj.mp e)
    have := h'.header c hc
    have := h'.header d hd
    have := headerWord_toNat h' hc hx
    have := headerWord_toNat h' hd hy
    by_cases hcd : c = d
    · subst hcd
      omega
    · have := blocks_apart h' hc hd hcd
      omega

/-- The bytes of the words of the headers are their first eight bytes. -/
theorem mem_bytesOf {k : Kmalloc} (h' : HeaderRing k l) (hx : x ∈ bytesOf (headerWords l)) :
    ∃ c ∈ l, c.addr.toNat ≤ x.toNat ∧ x.toNat < c.addr.toNat + 8 := by
  obtain ⟨a, ⟨c, hc, ha⟩, hlo, hhi⟩ := hx
  have := headerWord_toNat h' hc ha
  exact ⟨c, hc, by omega, by omega⟩

/-- A pointer to a block of the ring. -/
theorem heads_ptr {k : Kmalloc} (h' : HeaderRing k l) (hc : c ∈ l) : Heads l c.ptr :=
  ⟨c, hc, resetPtr_ptr (h'.even c hc)⟩

/-- The loop of `kfree` finds a block of the ring. -/
theorem findPrev_mem {k : Kmalloc} (h' : HeaderRing k l) (hf : f ∈ l) :
    ∃ c ∈ l, findPrev pointers k f.addr k.base = .ok (c.ptr, f.ptr) := by
  obtain ⟨P, Q, rfl⟩ := List.append_of_mem hf
  rcases List.eq_nil_or_concat P with rfl | ⟨P, b, rfl⟩
  · exact h'.findPrev_first
  · rw [List.concat_eq_append, List.append_assoc] at h'
    exact ⟨b, by simp, h'.findPrev_behind⟩

/-- The pointer in the header of a block of the ring. -/
theorem next_heads {k : Kmalloc} (h' : HeaderRing k l) (hf : f ∈ l) : Heads l (k.next f.ptr) := by
  have hring := h'
  obtain ⟨P, Q, rfl⟩ := List.append_of_mem hf
  obtain ⟨-, hnext, hQ, -⟩ := hring.read
  rw [hnext]
  cases Q with
  | nil =>
    have hlast : k.mem f.addr = k.base := hQ
    rw [hlast]
    cases P with
    | nil => exact ⟨f, hf, h'.head_eq.1⟩
    | cons c P => exact ⟨c, by simp, (Ring.head_eq (l := P ++ [f]) h'.toRing).1⟩
  | cons n Q =>
    rw [hQ.1]
    exact heads_ptr h' (by simp)

/-! ## `kfree` -/

/-- **`kfree` in bytes and in words.** -/
theorem kfree_sim (h' : HeaderRing h.words l) (hf : f ∈ l) :
    ∃ h₂ w₂, h.kfree (f.addr + headerSize) = .ok h₂ ∧ h.words.kfree (f.addr + headerSize) = .ok w₂ ∧
      Sim (headerWords l) h.mem h₂ w₂ := by
  have hW := headerWords_apart h'
  have hs := Sim.refl (headerWords l) h
  have hfree : f.addr + headerSize - headerSize = f.addr := UInt32.add_sub_cancel _ _
  obtain ⟨c, hc, hfind⟩ := findPrev_mem h' hf
  have hprev := heads_ptr h' hc
  have hfreed : Heads l f.addr := ⟨f, hf, resetPtr_of_even (h'.even f hf)⟩
  have hnext := next_heads h' hf
  have hread : h.next f.ptr = h.words.next f.ptr := rfl
  have hbase : h.words.base = h.base := rfl
  unfold ByteHeap.kfree Kmalloc.kfree
  rw [hbase] at hfind
  simp only [hfree, hbase, hfind, Res.ok_bind, hread]
  generalize (if resetPtr f.addr = resetPtr h.base then true else isUsed c.ptr) = isPrevUsed
  generalize (if resetPtr (h.words.next f.ptr) = resetPtr h.base then true
    else isUsed (h.words.next f.ptr)) = isNextUsed
  cases isPrevUsed with
  | false =>
    cases isNextUsed with
    | false => exact ⟨_, _, rfl, rfl, (hs.concat hW hprev hfreed).concat hW hprev hnext⟩
    | true => exact ⟨_, _, rfl, rfl, hs.concat hW hprev hfreed⟩
  | true =>
    cases isNextUsed with
    | false =>
      have hclear := hs.setNext hW hprev.next_mem (setUsed (h.words.next c.ptr) false)
      exact ⟨_, _, rfl, rfl, hclear.concat hW hfreed hnext⟩
    | true => exact ⟨_, _, rfl, rfl, hs.setNext hW hprev.next_mem _⟩

/-- The blocks that `kfree` leaves have headers of blocks that were there. -/
theorem release_addr (hd : d ∈ release b f Q) : ∃ c ∈ b :: f :: Q, d.addr = c.addr := by
  unfold release at hd
  split at hd
  · obtain rfl := List.mem_singleton.mp hd
    exact ⟨b, by simp, rfl⟩
  · rcases List.mem_cons.mp hd with rfl | hd
    · exact ⟨d, by simp, rfl⟩
    · obtain rfl := List.mem_singleton.mp hd
      exact ⟨f, by simp, rfl⟩
  · split at hd
    · rcases List.mem_cons.mp hd with rfl | hd
      · exact ⟨b, by simp, rfl⟩
      · exact ⟨d, by simp [hd], rfl⟩
    · rcases List.mem_cons.mp hd with rfl | hd
      · exact ⟨b, by simp, rfl⟩
      · exact ⟨d, List.mem_cons_of_mem _ (List.mem_cons_of_mem _ hd), rfl⟩
  · split at hd
    · rcases List.mem_cons.mp hd with rfl | hd
      · exact ⟨d, by simp, rfl⟩
      · rcases List.mem_cons.mp hd with rfl | hd
        · exact ⟨f, by simp, rfl⟩
        · exact ⟨d, by simp [hd], rfl⟩
    · rcases List.mem_cons.mp hd with rfl | hd
      · exact ⟨d, by simp, rfl⟩
      · rcases List.mem_cons.mp hd with rfl | hd
        · exact ⟨f, by simp, rfl⟩
        · exact ⟨d, List.mem_cons_of_mem _ (List.mem_cons_of_mem _ hd), rfl⟩

/-- **The ring that `kfree` leaves in the bytes** is the one it leaves in the words. -/
theorem kfree_ring (h' : HeaderRing h.words (P ++ b :: f :: Q)) :
    ∃ h₂, h.kfree (f.addr + headerSize) = .ok h₂ ∧ h₂.nextFree = h.nextFree ∧
      HeaderRing h₂.words (P ++ release b f Q) := by
  obtain ⟨w₂, hw₂, hbase, hnf, hring⟩ := h'.kfree
  obtain ⟨h₂, w₂', hk, hw₂', hs⟩ := kfree_sim h' (f := f) (by simp)
  obtain rfl := Except.ok.inj (hw₂.symm.trans hw₂')
  have hb : h₂.words.base = w₂.base := hs.base
  have hagree : ∀ d ∈ P ++ release b f Q,
      h₂.words.mem d.addr = w₂.mem d.addr ∧ h₂.words.mem (d.addr + 4) = w₂.mem (d.addr + 4) := by
    intro d hd
    obtain ⟨c, hc, haddr⟩ : ∃ c ∈ P ++ b :: f :: Q, d.addr = c.addr := by
      rcases List.mem_append.mp hd with hd | hd
      · exact ⟨d, List.mem_append_left _ hd, rfl⟩
      · obtain ⟨c, hc, haddr⟩ := release_addr hd
        exact ⟨c, List.mem_append_right _ hc, haddr⟩
    rw [haddr]
    exact ⟨hs.agrees ⟨c, hc, Or.inl rfl⟩, hs.agrees ⟨c, hc, Or.inr rfl⟩⟩
  refine ⟨h₂, hk, hs.nextFree.trans hnf, ⟨⟨?_, ?_, hring.even, hring.nonempty⟩, ?_, hring.header⟩⟩
  · rw [hb]
    exact hring.chain.congr hagree
  · rw [hb]
    exact hring.tiles
  · rw [hb]
    exact hring.bound

/-- The payload of a block has no byte of a header. -/
theorem payload_not_header {k : Kmalloc} (h' : HeaderRing k l) (hc : c ∈ l)
    (hlo : c.addr.toNat + 8 ≤ x.toNat) (hhi : x.toNat < c.addr.toNat + c.size.toNat) :
    ∀ d ∈ l, ¬ (d.addr.toNat ≤ x.toNat ∧ x.toNat < d.addr.toNat + 8) := by
  rintro d hd ⟨h1, h2⟩
  have := h'.header d hd
  by_cases hcd : c = d
  · subst hcd
    omega
  · have := blocks_apart h' hc hd hcd
    omega

/-- **`kfree` changes headers only**: the payloads stay, and a word read from the freed block is the
one that was there. -/
theorem kfree_headers_only (h' : HeaderRing h.words l) (hf : f ∈ l) :
    ∃ h₂, h.kfree (f.addr + headerSize) = .ok h₂ ∧
      (∀ x, (∀ c ∈ l, ¬ (c.addr.toNat ≤ x.toNat ∧ x.toNat < c.addr.toNat + 8)) →
        h₂.mem x = h.mem x) ∧
      (∀ c ∈ l, ∀ x, c.addr.toNat + 8 ≤ x.toNat → x.toNat < c.addr.toNat + c.size.toNat →
        h₂.mem x = h.mem x) ∧
      ∀ o : UInt32, o.toNat + 12 ≤ f.size.toNat →
        h₂.mem.load (f.addr + headerSize + o) = h.mem.load (f.addr + headerSize + o) := by
  obtain ⟨h₂, w₂, hk, -, hs⟩ := kfree_sim h' hf
  have hframe : ∀ x, (∀ c ∈ l, ¬ (c.addr.toNat ≤ x.toNat ∧ x.toNat < c.addr.toNat + 8)) →
      h₂.mem x = h.mem x := fun x hx => hs.frame fun hin => by
    obtain ⟨c, hc, hin⟩ := mem_bytesOf h' hin
    exact hx c hc hin
  have hpayload : ∀ c ∈ l, ∀ x, c.addr.toNat + 8 ≤ x.toNat → x.toNat < c.addr.toNat + c.size.toNat →
      h₂.mem x = h.mem x := fun c hc x hlo hhi => hframe x (payload_not_header h' hc hlo hhi)
  refine ⟨h₂, hk, hframe, hpayload, fun o ho => load_congr fun k hk => ?_⟩
  have hbound := (h'.addr_bounds hf).2
  have h8 : headerSize.toNat = 8 := rfl
  have hpay : (f.addr + headerSize).toNat = f.addr.toNat + 8 := by
    rw [Word.toNat_add_of_lt (by omega), h8]
  have haddr : (f.addr + headerSize + o).toNat = f.addr.toNat + 8 + o.toNat := by
    rw [Word.toNat_add_of_lt (by omega), hpay]
  have hbyte := byte_toNat (a := f.addr + headerSize + o) (by omega) hk
  exact hpayload f hf _ (by omega) (by omega)

/-- A heap of a free block and two in use: the first holds sevens, the second nines. -/
def twoUsed : ByteHeap where
  mem := store (store (store (store (store (store (fun x => if x < 0x11ff00 then 7 else 9)
    0x100000 0x11fe01) 0x100004 0x1fe00) 0x11fe00 0x11ff01) 0x11fe04 0x100) 0x11ff00 0x100000)
    0x11ff04 0x100
  base := 0x100000
  nextFree := 0x100000

def freedBlk : Blk := ⟨0x11fe00, 0x100, some 0xf8⟩

def liveBlk : Blk := ⟨0x11ff00, 0x100, some 0xf8⟩

theorem twoUsed_ring : HeaderRing twoUsed.words [⟨0x100000, 0x1fe00, none⟩, freedBlk, liveBlk] where
  chain := by decide +kernel
  tiles := ⟨rfl, rfl, rfl, rfl⟩
  even := by decide
  nonempty := by decide
  bound := by decide
  header := by decide

/-- The first joins the free block before it: `p->next` reads the old bytes, and the payload of the
second is the old one. -/
theorem kfree_headers_only_twoUsed : ∃ h₂, twoUsed.kfree 0x11fe08 = .ok h₂ ∧
    h₂.mem.load 0x11fe0c = 0x07070707 ∧ h₂.mem 0x11feff = 7 ∧
    ∀ x : UInt32, 0x11ff08 ≤ x.toNat → x.toNat < 0x120000 → h₂.mem x = twoUsed.mem x := by
  obtain ⟨h₂, hk, -, hpayload, hnext⟩ := kfree_headers_only (f := freedBlk) twoUsed_ring (by simp)
  refine ⟨h₂, hk, (hnext 4 (by decide)).trans (by decide +kernel), ?_, ?_⟩
  · exact (hpayload freedBlk (by simp) 0x11feff (by decide) (by decide)).trans (by decide +kernel)
  · exact fun x hlo hhi => hpayload liveBlk (by simp) x hlo hhi

end ByteHeap

end OwnOS
