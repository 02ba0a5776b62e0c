import OwnOS.Ata.Ranges
import OwnOS.Lib.Replay

/-!
# The driver as a store of bytes

`Ata::read` and `Ata::write` are for a drive what reads and writes are for an array of bytes.
`Call.spec` is the array: a read answers with the bytes of its range, a write replaces them. A call
is `Right` when its range is one of those that the driver reads or writes right (`Ranges.lean`),
which depends on the drive alone and is the same after every call.

* `calls_refine`: **any sequence of right calls answers as the array does**, whatever the memory of
  `bl_buffer` held at each call and however long the drive takes, and leaves the other drives alone.
-/

namespace OwnOS.Ata

open Lib

/-- What a call finds in memory: an error code that is not initialised, the memory of `bl_buffer`,
and the buffer of the caller with the place to read to. -/
structure Env where
  junkErr : UInt8
  junk : Buf
  buffer : Buf
  o : Nat

inductive Call where
  | read (pos sizee : UInt32)
  | write (pos sizee : UInt32) (data : Buf)

/-- The call on an array of bytes. -/
def Call.spec (disk : Buf) : Call → List UInt8 × Buf
  | .read pos sizee => (Buf.bytes (fun k => disk (pos.toNat + k)) sizee.toNat, disk)
  | .write pos sizee data => ([], disk.put pos.toNat sizee.toNat data)

namespace Ide

/-- The call of the driver: the bytes that it read. -/
def call (fuel : Nat) (ataDrive : UInt8) (s : Ide) : Call × Env → Res (List UInt8 × Ide)
  | (.read pos sizee, e) => do
    let (_, s, b) ← s.read fuel e.junkErr ataDrive e.junk pos e.buffer e.o sizee
    .ok (Buf.bytes (fun k => b (e.o + k)) sizee.toNat, s)
  | (.write pos sizee data, e) => do
    let (_, s, _) ← s.write fuel e.junkErr ataDrive e.junk pos data sizee
    .ok ([], s)

/-- The driver handles the range right. -/
def Right (s : Ide) (d : Fin 4) : Call → Prop
  | .read pos sizee => FitsInt pos sizee ∧ s.ReadsRight d pos sizee
  | .write pos sizee _ => FitsInt pos sizee ∧ s.WritesRight d pos sizee

variable {s s0 s' : Ide} {fuel o : Nat} {d : Fin 4} {ataDrive junkErr : UInt8} {c : Call} {e : Env}
  {b junk buffer : Buf} {pos sizee pos' sizee' : UInt32}

/-- What stays of a drive, whatever is written to it. -/
structure SameDrive (s s' : Ide) (d : Fin 4) : Prop where
  ideDevices : s'.ideDevices = s.ideDevices
  faultAt : ∀ k, (s'.drive d).faultAt k = (s.drive d).faultAt k
  others : ∀ i j, (i, j) ≠ ((s.ideDevices d).channel, (s.ideDevices d).drive) →
    s'.media i j = s.media i j

theorem SameDrive.goodRange (h : SameDrive s s' d) :
    s'.GoodRange d pos sizee ↔ s.GoodRange d pos sizee := by
  simp only [GoodRange, h.faultAt]

/-- Which calls are right does not change. -/
theorem SameDrive.right (h : SameDrive s s' d) : s'.Right d c ↔ s.Right d c := by
  cases c with
  | read pos sizee => simp only [Right, ReadsRight, h.ideDevices, h.goodRange]
  | write pos sizee data => simp only [Right, WritesRight, h.ideDevices, h.goodRange]

theorem SameDrive.trans {s'' : Ide} (h : SameDrive s s' d) (h' : SameDrive s' s'' d) :
    SameDrive s s'' d := by
  refine ⟨h'.ideDevices.trans h.ideDevices, fun k => (h'.faultAt k).trans (h.faultAt k),
    fun i j hij => ?_⟩
  rw [h'.others i j (h.ideDevices ▸ hij), h.others i j hij]

theorem drive_of_media (hd : s'.ideDevices = s.ideDevices) (h : s'.media = s.mediaWith d b) :
    s'.drive d = { s.drive d with byte := b } := by
  rw [drive, hd, h, mediaWith_drive]

theorem sameDrive_of_media (hd : s'.ideDevices = s.ideDevices) (h : s'.media = s.mediaWith d b) :
    SameDrive s s' d := by
  refine ⟨hd, fun k => ?_, fun i j hij => ?_⟩
  · rw [drive_of_media hd h]
    rfl
  · rw [h, mediaWith_of_ne hij]

/-- **One right call.** -/
theorem call_right (hs : s.Ok fuel) (hm : s.Mounted ataDrive d) (hr : s.Right d c) (e : Env) :
    ∃ a s', s.call fuel ataDrive (c, e) = .ok (a, s') ∧
    (s'.Ok fuel ∧ s'.Mounted ataDrive d ∧ SameDrive s s' d) ∧
      c.spec (s.drive d).byte = (a, (s'.drive d).byte) := by
  cases c with
  | read pos sizee =>
    obtain ⟨hf, hr⟩ := hr
    obtain ⟨s1, h1, hn, hmedia⟩ := read_right hs hm hf hr e.junkErr e.junk e.buffer e.o
    obtain ⟨hm1, hd1⟩ := hn.mounted hmedia hm
    refine ⟨Buf.bytes (fun k => (s.drive d).byte (pos.toNat + k)) sizee.toNat, s1, ?_,
      ⟨hn.ok, hm1, hn.ideDevices, fun k => by rw [hd1], fun i j _ => by rw [hmedia]⟩, ?_⟩
    · rw [call, h1, Res.ok_bind]
      exact congrArg (fun a => Except.ok (a, s1)) (Buf.bytes_congr fun k hk => Buf.put_add hk)
    · rw [hd1]
      rfl
  | write pos sizee data =>
    obtain ⟨hf, hr⟩ := hr
    obtain ⟨s1, b, h1, hn, hmedia⟩ := write_right hs hm hf hr e.junkErr e.junk data
    have hd1 := drive_of_media hn.ideDevices hmedia
    have hkind : (s1.drive d).kind = .ata := by
      rw [hd1]
      exact hm.kind
    refine ⟨[], s1, ?_,
      ⟨hn.ok, ⟨hm.index, hn.ideDevices ▸ hm.reserved, hn.ideDevices ▸ hm.type, hkind⟩,
      sameDrive_of_media hn.ideDevices hmedia⟩, ?_⟩
    · rw [call, h1, Res.ok_bind]
    · rw [hd1]
      rfl

/-- **The driver is a store of bytes**: every sequence of right calls returns, answers as the array
of bytes does, and leaves the array's bytes on its drive and every other drive as it was. -/
theorem calls_refine (hs : s.Ok fuel) (hm : s.Mounted ataDrive d) {cs : List (Call × Env)}
    (hr : ∀ c ∈ cs, s.Right d c.1) :
    ∃ s', replay (call fuel ataDrive) s cs
        = .ok ((expected (fun disk c => Call.spec disk c.1) (s.drive d).byte cs).1, s') ∧
      (s'.drive d).byte = (expected (fun disk c => Call.spec disk c.1) (s.drive d).byte cs).2 ∧
      SameDrive s s' d := by
  obtain ⟨s', hrun, ⟨-, -, hsame⟩, habs⟩ := replay_refines (call fuel ataDrive)
    (fun disk c => Call.spec disk c.1) (fun t => (t.drive d).byte)
    (fun t => t.Ok fuel ∧ t.Mounted ataDrive d ∧ SameDrive s t d) (fun c => s.Right d c.1)
    (fun t c ⟨hok, hmt, ht⟩ hc => by
      obtain ⟨a, t', hcall, ⟨hok', hm', hsame⟩, hspec⟩ := call_right hok hmt (ht.right.mpr hc) c.2
      exact ⟨a, t', hcall, ⟨hok', hm', ht.trans hsame⟩, hspec⟩)
    ⟨hs, hm, rfl, fun _ => rfl, fun _ _ _ => rfl⟩ hr
  exact ⟨s', hrun, habs.symm, hsame⟩

end Ide

end OwnOS.Ata
