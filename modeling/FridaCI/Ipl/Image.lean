import FridaCI.Ipl.Memory
import Mathlib.Data.List.MinMax

/-!
# Images in memory

ipl/lib/image_scan.c, image_setup.c and image_start.c. An image is a startup header, the
startup program and a file system behind it; the loader looks for the newest one, moves its
startup program to where it runs and jumps there. `startup_hdr` and `scratch` are objects of
their own, outside of the memory that is scanned.
-/

namespace FridaCI.Ipl

set_option autoImplicit false

/-- The globals of the loader, and what it has written to the serial line. -/
structure Loader where
  mem : Memory
  scratch : Memory
  startupHdr : Memory
  serial : List Byte

/-! ## ser_dev.c -/

def Loader.putchar (s : Loader) (c : Byte) : Loader :=
  { s with serial := s.serial ++ if c = 10 then [13, 10] else [c] }

def Loader.putstr (s : Loader) (str : String) : Loader :=
  str.toList.foldl (fun s c => s.putchar (BitVec.ofNat 8 c.toNat)) s

def Loader.puthex (s : Loader) (x : BitVec 32) : Loader :=
  s.putstr (String.ofList ((List.range 8).map fun i =>
    (Nat.digitChar ((x >>> (28 - 4 * i)).toNat % 16)).toUpper))

/-! ## sys/startup.h -/

def headerSize : Addr := 256

def headerSignature : BitVec 32 := 0x00ff7eeb

def signature (hdr : Memory) : BitVec 32 := hdr.word 0

def version (hdr : Memory) : BitVec 16 := hdr.half 4

def startupVaddr (hdr : Memory) : Addr := hdr.word 12

def paddrBias (hdr : Memory) : Addr := hdr.word 16

def ramPaddr (hdr : Memory) : Addr := hdr.word 24

def startupSize (hdr : Memory) : Addr := hdr.word 32

def storedSize (hdr : Memory) : Addr := hdr.word 36

def setImagefsPaddr (hdr : Memory) (paddr : Addr) : Memory := hdr.storeWord 40 paddr

/-! ## Copies into and out of an object -/

def Memory.load (obj mem : Memory) (src size : Addr) : Memory :=
  fun o => if o < size then mem (src + o) else obj o

def Memory.unload (mem obj : Memory) (dest size : Addr) : Memory :=
  fun a => if a - dest < size then obj (a - dest) else mem a

/-! ## image_scan -/

/-- The sum of the words, also of one that begins in front of `len` and ends behind it. -/
def smallChecksum (iray : Memory) (len : Nat) : BitVec 32 :=
  (List.range ((len + 3) / 4)).foldl (fun sum i => sum + iray.word (BitVec.ofNat 32 (4 * i))) 0

def checksumLoop (mem : Memory) : Nat → Memory → Addr → BitVec 32 → Memory × BitVec 32
  | 0, scratch, _, sum => (scratch, sum)
  | n + 1, scratch, addr, sum =>
    let scratch := scratch.load mem addr 512
    checksumLoop mem n scratch (addr + 512) (sum + smallChecksum scratch 512)

def checksum (mem scratch : Memory) (addr len : Addr) : Memory × BitVec 32 :=
  let chunks := len.toNat / 512
  let rest := len.toNat % 512
  let (scratch, sum) := checksumLoop mem chunks scratch addr 0
  if rest ≠ 0 then
    let scratch := scratch.load mem (addr + BitVec.ofNat 32 (512 * chunks)) (BitVec.ofNat 32 rest)
    (scratch, sum + smallChecksum scratch rest)
  else (scratch, sum)

/-- The variables of the loop of image_scan. -/
structure Scan where
  loader : Loader
  start : Addr
  lastver : BitVec 16
  lastaddr : Addr

/-- The checks of one round: whether `start` is the address of an image. -/
def checkImage (s : Loader) (start : Addr) (hdr : Memory) : Loader × Bool :=
  if signature hdr ≠ headerSignature then (s, false)
  else
    let (scratch, sum) := checksum s.mem s.scratch start (startupSize hdr)
    if sum ≠ 0 then
      ({ s with scratch }.putstr "   Error: header checksum incorrect.\n", false)
    else
      let (scratch, sum) := checksum s.mem scratch (start + startupSize hdr)
        (storedSize hdr - startupSize hdr)
      if sum ≠ 0 then
        ({ s with scratch }.putstr "   Error: image checksum incorrect.\n", false)
      else ({ s with scratch }, true)

/-- One round of the loop, with the step of `start` at its end. -/
def imageScanRound (c : Scan) : Scan :=
  let hdr := c.loader.startupHdr.load c.loader.mem c.start headerSize
  let (s, ok) := checkImage { c.loader with startupHdr := hdr } c.start hdr
  if ok then
    let c := if c.lastver < version hdr then
      { c with lastver := version hdr, lastaddr := c.start } else c
    { c with loader := s, start := c.start + (storedSize hdr - 4) + 4 }
  else { c with loader := s, start := c.start + 4 }

/-- `none` if the loop has used up its fuel. -/
def imageScanLoop (stop : Addr) : Nat → Scan → Option (Loader × Addr)
  | 0, _ => none
  | fuel + 1, c =>
    if c.start < stop then imageScanLoop stop fuel (imageScanRound c)
    else some (c.loader, c.lastaddr)

def imageScan (fuel : Nat) (s : Loader) (start stop : Addr) : Option (Loader × Addr) :=
  imageScanLoop stop fuel ⟨s, start, 0, -1⟩

/-! ## image_setup and image_start -/

def imageSetup (s : Loader) (addr : Addr) : Loader :=
  let hdr := s.startupHdr.load s.mem addr headerSize
  let ramAddr := ramPaddr hdr + paddrBias hdr
  let hdr := setImagefsPaddr hdr (addr + startupSize hdr - paddrBias hdr)
  let mem := s.mem.unload hdr ramAddr headerSize
  let mem := copy mem (ramAddr + headerSize) (addr + headerSize) (startupSize hdr - headerSize)
  { s with mem, startupHdr := hdr }

/-- The address that is jumped to. -/
def imageStart (s : Loader) (addr : Addr) : Loader × Addr :=
  let hdr := s.startupHdr.load s.mem addr headerSize
  ({ s with startupHdr := hdr }, startupVaddr hdr)

/-! ## Checksums -/

/-- The sum of `n` words. -/
def wordSum (mem : Memory) (addr : Addr) (n : Nat) : BitVec 32 :=
  (List.range n).foldl (fun sum i => sum + mem.word (addr + BitVec.ofNat 32 (4 * i))) 0

theorem wordSum_succ (mem : Memory) (addr : Addr) (n : Nat) :
    wordSum mem addr (n + 1) = wordSum mem addr n + mem.word (addr + BitVec.ofNat 32 (4 * n)) := by
  rw [wordSum, List.range_succ, List.foldl_append]
  rfl

theorem wordSum_add (mem : Memory) (addr : Addr) (m n : Nat) :
    wordSum mem addr (m + n) =
      wordSum mem addr m + wordSum mem (addr + BitVec.ofNat 32 (4 * m)) n := by
  induction n with
  | zero => simp [wordSum]
  | succ n ih =>
    have haddr : addr + BitVec.ofNat 32 (4 * (m + n)) =
        addr + BitVec.ofNat 32 (4 * m) + BitVec.ofNat 32 (4 * n) := by bv_omega
    rw [← Nat.add_assoc, wordSum_succ, ih, wordSum_succ, haddr, BitVec.add_assoc]

theorem word_load (obj mem : Memory) (src : Addr) {o size : Addr}
    (h : o.toNat + 3 < size.toNat) : (obj.load mem src size).word o = mem.word (src + o) := by
  have hread : ∀ k : Addr, k.toNat ≤ 3 →
      obj.load mem src size (o + k) = mem (src + o + k) := by
    intro k hk
    have hlt : o + k < size := by bv_omega
    rw [Memory.load, if_pos hlt, BitVec.add_assoc]
  have h0 := hread 0 (by decide)
  rw [add_zero, add_zero] at h0
  rw [Memory.word, Memory.word, hread 1 (by decide), hread 2 (by decide), hread 3 (by decide), h0]

theorem wordSum_load (obj mem : Memory) (src : Addr) {size : Addr} {n : Nat}
    (h : 4 * n ≤ size.toNat) : wordSum (obj.load mem src size) 0 n = wordSum mem src n := by
  induction n with
  | zero => rfl
  | succ n ih =>
    have hword : (BitVec.ofNat 32 (4 * n)).toNat + 3 < size.toNat := by bv_omega
    rw [wordSum_succ, wordSum_succ, ih (by omega), zero_add, word_load _ _ _ hword]

theorem smallChecksum_eq (iray : Memory) (len : Nat) :
    smallChecksum iray len = wordSum iray 0 ((len + 3) / 4) := by
  unfold smallChecksum wordSum
  simp only [zero_add]

theorem checksumLoop_sum (mem : Memory) (n : Nat) (scratch : Memory) (addr : Addr)
    (sum : BitVec 32) :
    (checksumLoop mem n scratch addr sum).2 = sum + wordSum mem addr (128 * n) := by
  induction n generalizing scratch addr sum with
  | zero => simp [checksumLoop, wordSum]
  | succ n ih =>
    have hadd : 128 * (n + 1) = 128 + 128 * n := by omega
    rw [checksumLoop, ih, smallChecksum_eq, wordSum_load _ _ _ (by decide), hadd, wordSum_add,
      ← BitVec.add_assoc]
    rfl

/-- The last word of a range whose length is no multiple of four ends in what scratch held before:
the bytes of the chunk in front, or of an earlier range. -/
theorem checksum_sum (mem scratch : Memory) (addr len : Addr) :
    (checksum mem scratch addr len).2 = wordSum mem addr (len.toNat / 4) +
      if len.toNat % 4 = 0 then 0
      else (checksum mem scratch addr len).1.word
        (BitVec.ofNat 32 (4 * (len.toNat % 512 / 4))) := by
  have hsum := checksumLoop_sum mem (len.toNat / 512) scratch addr 0
  rw [zero_add] at hsum
  unfold checksum
  dsimp only
  split
  · next hrest =>
    generalize (checksumLoop mem (len.toNat / 512) scratch addr 0).1 = before
    have hlen : len.toNat / 4 = 128 * (len.toNat / 512) + len.toNat % 512 / 4 := by omega
    have haddr : BitVec.ofNat 32 (512 * (len.toNat / 512)) =
        BitVec.ofNat 32 (4 * (128 * (len.toNat / 512))) := by
      congr 1
      omega
    have hsize : 4 * (len.toNat % 512 / 4) ≤ (BitVec.ofNat 32 (len.toNat % 512)).toNat := by
      rw [BitVec.toNat_ofNat]
      omega
    rw [hsum, smallChecksum_eq, hlen, wordSum_add, haddr, add_assoc]
    split
    · next hmod =>
      have hwords : (len.toNat % 512 + 3) / 4 = len.toNat % 512 / 4 := by omega
      rw [hwords, wordSum_load _ _ _ hsize, add_zero]
    · next hmod =>
      have hwords : (len.toNat % 512 + 3) / 4 = len.toNat % 512 / 4 + 1 := by omega
      rw [hwords, wordSum_succ, wordSum_load _ _ _ hsize, zero_add]
  · next hrest =>
    have hlen : 128 * (len.toNat / 512) = len.toNat / 4 := by omega
    rw [if_pos (by omega), hsum, hlen, add_zero]

theorem checksum_of_dvd (mem scratch : Memory) (addr : Addr) {len : Addr}
    (h : 4 ∣ len.toNat) : (checksum mem scratch addr len).2 = wordSum mem addr (len.toNat / 4) := by
  rw [checksum_sum, if_pos (Nat.mod_eq_zero_of_dvd h), add_zero]

/-- The sum of the bytes of a range as words, with zeros behind the last byte. -/
def paddedSum (mem : Memory) (addr len : Addr) : BitVec 32 :=
  wordSum (Memory.load (fun _ => 0) mem addr len) 0 ((len.toNat + 3) / 4)

theorem paddedSum_eq (mem : Memory) (addr len : Addr) :
    paddedSum mem addr len = wordSum mem addr (len.toNat / 4) +
      if len.toNat % 4 = 0 then 0
      else (Memory.load (fun _ => 0) mem addr len).word
        (BitVec.ofNat 32 (4 * (len.toNat / 4))) := by
  have hsize : 4 * (len.toNat / 4) ≤ len.toNat := Nat.mul_div_le _ _
  unfold paddedSum
  split
  · next hmod =>
    have hwords : (len.toNat + 3) / 4 = len.toNat / 4 := by omega
    rw [hwords, wordSum_load _ _ _ hsize, add_zero]
  · next hmod =>
    have hwords : (len.toNat + 3) / 4 = len.toNat / 4 + 1 := by omega
    rw [hwords, wordSum_succ, wordSum_load _ _ _ hsize, zero_add]

theorem checksum_ones (addr len : Addr) :
    (checksum (fun _ => 1) (fun _ => 1) addr len).1 = fun _ => 1 := by
  have hload : ∀ src size, Memory.load (fun _ => 1) (fun _ => 1) src size = fun _ => 1 := by
    intro src size
    funext o
    exact ite_self _
  have hloop : ∀ n addr sum,
      (checksumLoop (fun _ => 1) n (fun _ => 1) addr sum).1 = fun _ => 1 := by
    intro n
    induction n with
    | zero => exact fun _ _ => rfl
    | succ n ih =>
      intro addr sum
      rw [checksumLoop, hload]
      exact ih _ _
  unfold checksum
  dsimp only
  split
  · rw [hloop, hload]
  · exact hloop _ _ _

/-- The checksum is that of the range alone for all lengths that are multiples of four, and for no
others. -/
theorem checksum_eq_paddedSum_iff (len : Addr) :
    (∀ mem scratch addr, (checksum mem scratch addr len).2 = paddedSum mem addr len) ↔
      4 ∣ len.toNat := by
  constructor
  · intro h
    by_contra hmod
    have hmod : len.toNat % 4 ≠ 0 := fun hzero => hmod (Nat.dvd_of_mod_eq_zero hzero)
    have hones := h (fun _ => 1) (fun _ => 1) 0
    rw [checksum_sum, paddedSum_eq, if_neg hmod, if_neg hmod, checksum_ones] at hones
    have hlast := congrArg (BitVec.extractLsb' 24 8) (add_left_cancel hones)
    rw [(extract_word _ _).2.2.2, (extract_word _ _).2.2.2] at hlast
    have hend : ¬ BitVec.ofNat 32 (4 * (len.toNat / 4)) + 3 < len := by bv_omega
    rw [Memory.load, if_neg hend] at hlast
    exact absurd hlast (by decide)
  · intro hdvd mem scratch addr
    rw [checksum_of_dvd mem scratch addr hdvd, paddedSum_eq,
      if_pos (Nat.mod_eq_zero_of_dvd hdvd), add_zero]

end FridaCI.Ipl
