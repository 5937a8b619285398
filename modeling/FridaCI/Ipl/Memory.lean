import Mathlib.Data.BitVec

/-!
# The memory of the board

ipl/lib/copy.c on a memory of bytes with addresses of 32 bits, in little endian order.
-/

namespace FridaCI.Ipl

set_option autoImplicit false

abbrev Byte := BitVec 8

abbrev Addr := BitVec 32

abbrev Memory := Addr → Byte

def Memory.store (mem : Memory) (dest : Addr) (b : Byte) : Memory :=
  fun a => if a = dest then b else mem a

/-- `*(long*)a` -/
def Memory.word (mem : Memory) (a : Addr) : BitVec 32 :=
  mem (a + 3) ++ mem (a + 2) ++ mem (a + 1) ++ mem a

/-- `*(short*)a` -/
def Memory.half (mem : Memory) (a : Addr) : BitVec 16 := mem (a + 1) ++ mem a

def Memory.storeWord (mem : Memory) (dest : Addr) (w : BitVec 32) : Memory :=
  (((mem.store dest (w.extractLsb' 0 8)).store (dest + 1) (w.extractLsb' 8 8)).store
    (dest + 2) (w.extractLsb' 16 8)).store (dest + 3) (w.extractLsb' 24 8)

/-! ## copy_memory -/

/-- The loop over single bytes. -/
def copyBytes : Nat → Memory → Addr → Addr → Memory
  | 0, mem, _, _ => mem
  | n + 1, mem, dest, src => copyBytes n (mem.store dest (mem src)) (dest + 1) (src + 1)

/-- The loop over words. -/
def copyWords : Nat → Memory → Addr → Addr → Memory
  | 0, mem, _, _ => mem
  | n + 1, mem, dest, src => copyWords n (mem.storeWord dest (mem.word src)) (dest + 4) (src + 4)

def copyMemory (mem : Memory) (dest src size : Addr) : Memory :=
  let words := size.toNat / 4
  copyBytes (size.toNat % 4) (copyWords words mem dest src)
    (dest + BitVec.ofNat 32 (4 * words)) (src + BitVec.ofNat 32 (4 * words))

/-- All copying goes through here. -/
def copy (mem : Memory) (dest src size : Addr) : Memory := copyMemory mem dest src size

/-! ## Words against bytes -/

theorem extract_word (mem : Memory) (a : Addr) :
    (mem.word a).extractLsb' 0 8 = mem a ∧ (mem.word a).extractLsb' 8 8 = mem (a + 1) ∧
      (mem.word a).extractLsb' 16 8 = mem (a + 2) ∧
      (mem.word a).extractLsb' 24 8 = mem (a + 3) := by
  unfold Memory.word
  refine ⟨?_, ?_, ?_, ?_⟩ <;>
  · ext i hi
    simp only [BitVec.getElem_extractLsb', BitVec.getLsbD_append]
    grind

theorem storeWord_word (mem : Memory) (dest src : Addr) :
    mem.storeWord dest (mem.word src) =
      (((mem.store dest (mem src)).store (dest + 1) (mem (src + 1))).store (dest + 2)
        (mem (src + 2))).store (dest + 3) (mem (src + 3)) := by
  obtain ⟨h₀, h₁, h₂, h₃⟩ := extract_word mem src
  rw [Memory.storeWord, h₀, h₁, h₂, h₃]

theorem store_of_ne (mem : Memory) {dest a : Addr} (b : Byte) (h : a ≠ dest) :
    mem.store dest b a = mem a := if_neg h

theorem store_self (mem : Memory) (dest : Addr) (b : Byte) : mem.store dest b dest = b :=
  if_pos rfl

/-- A word is copied like its bytes, unless the destination begins behind the first byte of the
source word. -/
theorem storeWord_eq_copyBytes (mem : Memory) {dest src : Addr}
    (h : dest - src ≠ 1 ∧ dest - src ≠ 2 ∧ dest - src ≠ 3) :
    mem.storeWord dest (mem.word src) = copyBytes 4 mem dest src := by
  have h1 : src + 1 ≠ dest := by bv_omega
  have h2 : src + 2 ≠ dest := by bv_omega
  have h3 : src + 3 ≠ dest := by bv_omega
  have h21 : src + 2 ≠ dest + 1 := by bv_omega
  have h31 : src + 3 ≠ dest + 1 := by bv_omega
  have h32 : src + 3 ≠ dest + 2 := by bv_omega
  have hadd : ∀ a : Addr, a + 1 + 1 = a + 2 ∧ a + 2 + 1 = a + 3 := by
    intro a
    constructor <;> bv_omega
  rw [storeWord_word]
  simp only [copyBytes, (hadd dest).1, (hadd dest).2, (hadd src).1, (hadd src).2]
  rw [store_of_ne _ _ h1, store_of_ne _ _ h21, store_of_ne _ _ h2, store_of_ne _ _ h32,
    store_of_ne _ _ h31, store_of_ne _ _ h3]

theorem copyBytes_add (m n : Nat) (mem : Memory) (dest src : Addr) :
    copyBytes (m + n) mem dest src =
      copyBytes n (copyBytes m mem dest src) (dest + BitVec.ofNat 32 m)
        (src + BitVec.ofNat 32 m) := by
  induction m generalizing mem dest src with
  | zero => simp [copyBytes]
  | succ m ih =>
    have hadd : ∀ a : Addr, a + 1 + BitVec.ofNat 32 m = a + BitVec.ofNat 32 (m + 1) := by
      intro a
      bv_omega
    rw [Nat.add_right_comm, copyBytes, ih, hadd, hadd, copyBytes]

theorem copyWords_eq_copyBytes (n : Nat) (mem : Memory) {dest src : Addr}
    (h : dest - src ≠ 1 ∧ dest - src ≠ 2 ∧ dest - src ≠ 3) :
    copyWords n mem dest src = copyBytes (4 * n) mem dest src := by
  induction n generalizing mem dest src with
  | zero => rfl
  | succ n ih =>
    have hsub : dest + 4 - (src + 4) = dest - src := by bv_omega
    rw [copyWords, storeWord_eq_copyBytes mem h, ih _ (by rwa [hsub]), Nat.mul_succ,
      Nat.add_comm, copyBytes_add]
    rfl

theorem copyMemory_eq_copyBytes (mem : Memory) {dest src size : Addr}
    (h : size < 4 ∨ (dest - src ≠ 1 ∧ dest - src ≠ 2 ∧ dest - src ≠ 3)) :
    copyMemory mem dest src size = copyBytes size.toNat mem dest src := by
  unfold copyMemory
  dsimp only
  rcases h with hsize | hfar
  · have hzero : size.toNat / 4 = 0 := by bv_omega
    have hmod : size.toNat % 4 = size.toNat := by bv_omega
    rw [hzero, hmod, copyWords]
    simp
  · rw [copyWords_eq_copyBytes _ _ hfar, ← copyBytes_add, Nat.div_add_mod]

/-! ## What is left alone -/

theorem copyBytes_frame {n : Nat} (mem : Memory) {dest src a : Addr}
    (h : n ≤ (a - dest).toNat) : copyBytes n mem dest src a = mem a := by
  induction n generalizing mem dest src with
  | zero => rfl
  | succ n ih =>
    have hne : a ≠ dest := by bv_omega
    rw [copyBytes, ih _ (by bv_omega), store_of_ne _ _ hne]

theorem storeWord_frame (mem : Memory) (w : BitVec 32) {dest a : Addr}
    (h : 4 ≤ (a - dest).toNat) : mem.storeWord dest w a = mem a := by
  have h0 : a ≠ dest := by bv_omega
  have h1 : a ≠ dest + 1 := by bv_omega
  have h2 : a ≠ dest + 2 := by bv_omega
  have h3 : a ≠ dest + 3 := by bv_omega
  rw [Memory.storeWord, store_of_ne _ _ h3, store_of_ne _ _ h2, store_of_ne _ _ h1,
    store_of_ne _ _ h0]

theorem copyWords_frame {n : Nat} (mem : Memory) {dest src a : Addr}
    (h : 4 * n ≤ (a - dest).toNat) : copyWords n mem dest src a = mem a := by
  induction n generalizing mem dest src with
  | zero => rfl
  | succ n ih =>
    rw [copyWords, ih _ (by bv_omega), storeWord_frame _ _ (by bv_omega)]

/-- Where the source begins in front of the destination, the destination has to begin behind the
source. -/
theorem copyBytes_copied {n : Nat} (mem : Memory) {dest src : Addr}
    (h : dest = src ∨ n ≤ (dest - src).toNat) (hn : n ≤ 2 ^ 32) {k : Addr} (hk : k.toNat < n) :
    copyBytes n mem dest src (dest + k) = mem (src + k) := by
  induction n generalizing mem dest src k with
  | zero => exact absurd hk (Nat.not_lt_zero _)
  | succ n ih =>
    rw [copyBytes]
    by_cases hzero : k = 0
    · have hend : n ≤ (dest + k - (dest + 1)).toNat := by bv_omega
      have hdest : dest + k = dest := by bv_omega
      have hsrc : src + k = src := by bv_omega
      rw [copyBytes_frame _ hend, hdest, hsrc, store_self]
    · have hdest : dest + k = dest + 1 + (k - 1) := by bv_omega
      have hsrc : src + k = src + 1 + (k - 1) := by bv_omega
      have hne : src + 1 + (k - 1) ≠ dest := by bv_omega
      have hnext : dest + 1 = src + 1 ∨ n ≤ (dest + 1 - (src + 1)).toNat := by bv_omega
      rw [hdest, ih _ hnext (by omega) (by bv_omega), store_of_ne _ _ hne, hsrc]

/-- What a copy of `size` bytes does to each byte. -/
theorem copy_apply (mem : Memory) {dest src size : Addr}
    (h : dest = src ∨ size.toNat ≤ (dest - src).toNat) (a : Addr) :
    copy mem dest src size a = if a - dest < size then mem (src + (a - dest)) else mem a := by
  have hfar : size < 4 ∨ (dest - src ≠ 1 ∧ dest - src ≠ 2 ∧ dest - src ≠ 3) := by bv_omega
  rw [copy, copyMemory_eq_copyBytes mem hfar]
  have ha : dest + (a - dest) = a := by bv_omega
  split
  · next hlt =>
    have hcopied := copyBytes_copied mem h size.isLt.le (k := a - dest) (BitVec.lt_def.mp hlt)
    rwa [ha] at hcopied
  · next hge =>
    exact copyBytes_frame mem (Nat.not_lt.mp (mt BitVec.lt_def.mpr hge))

/-- A destination behind the first byte of the first source word: its bytes there come from the
word as it was, but byte by byte the first one comes again. -/
theorem copyMemory_overlapping {dest src size : Addr} (hsize : 4 ≤ size.toNat)
    (hd : dest - src = 1 ∨ dest - src = 2 ∨ dest - src = 3) (mem : Memory) :
    copyMemory mem dest src size (dest + (dest - src)) = mem dest ∧
      copyBytes size.toNat mem dest src (dest + (dest - src)) = mem src := by
  have hsrc : src + (dest - src) = dest := by bv_omega
  generalize hdiff : dest - src = d at hd hsrc ⊢
  have hlt : d.toNat < 4 := by bv_omega
  constructor
  · obtain ⟨words, hwords⟩ : ∃ words, size.toNat / 4 = words + 1 :=
      Nat.exists_eq_succ_of_ne_zero (by omega)
    have hsmall := size.isLt
    unfold copyMemory
    rw [hwords, copyBytes_frame _ (by bv_omega), copyWords, copyWords_frame _ (by bv_omega),
      storeWord_word]
    rcases hd with rfl | rfl | rfl
    · simp [Memory.store, ← hsrc]
    · simp [Memory.store, ← hsrc]
    · simp [Memory.store, ← hsrc]
  · obtain ⟨rest, hrest⟩ : ∃ rest, size.toNat = d.toNat + (rest + 1) :=
      ⟨size.toNat - d.toNat - 1, by omega⟩
    have hfirst : copyBytes d.toNat mem dest src dest = mem src := by
      have h := @copyBytes_copied d.toNat mem dest src (Or.inr (by rw [hdiff])) (by omega) 0
        (by bv_omega)
      simpa using h
    have hend : rest ≤ (dest + d - (dest + d + 1)).toNat := by
      have := size.isLt
      bv_omega
    rw [hrest, copyBytes_add, BitVec.ofNat_toNat, BitVec.setWidth_eq, hsrc, copyBytes,
      copyBytes_frame _ hend, store_self, hfirst]

/-- Copying by words does what copying by bytes does, whatever the ranges, except where the
destination begins inside the first source word behind its first byte. -/
theorem copyMemory_eq_copyBytes_iff (dest src size : Addr) :
    (∀ mem, copyMemory mem dest src size = copyBytes size.toNat mem dest src) ↔
      size < 4 ∨ (dest - src ≠ 1 ∧ dest - src ≠ 2 ∧ dest - src ≠ 3) := by
  constructor
  · intro h
    by_contra hnot
    have hsize : 4 ≤ size.toNat := by bv_omega
    have hd : dest - src = 1 ∨ dest - src = 2 ∨ dest - src = 3 := by bv_omega
    have hne : dest ≠ src := by bv_omega
    let mem : Memory := fun a => if a = src then 1 else 0
    obtain ⟨hwords, hbytes⟩ := copyMemory_overlapping hsize hd mem
    rw [h mem, hbytes] at hwords
    simp [mem, hne] at hwords
  · intro h mem
    exact copyMemory_eq_copyBytes mem h

end FridaCI.Ipl
