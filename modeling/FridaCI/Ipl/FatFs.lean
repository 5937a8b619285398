import FridaCI.Ipl.Memory
import Mathlib.Logic.Function.Iterate
import Mathlib.Tactic.Ring

/-!
# Files on the card

ipl/boards/mx6q-sabrelite/fat-fs.c: the entries of the allocation table, with the sector that is
kept in blk_buf, and the copy of a file. The copy reads clusters that lie one behind the other in
one transfer; the loop that it replaces is still in the source behind `#else` and reads one
cluster at a time.
-/

namespace FridaCI.Ipl

set_option autoImplicit false

def sectorSize : Nat := 512

/-- The blocks of the card, which of them can be read, and what is in memory after a transfer that
has failed. -/
structure Device where
  sector : Addr → Nat → Byte
  readable : Addr → Bool
  failed : Memory → Addr → Addr → Nat → Memory

/-- The byte `o` behind the beginning of a block. -/
def Device.blocks (dev : Device) (first : Addr) (o : Nat) : Byte :=
  dev.sector (first + BitVec.ofNat 32 (o / sectorSize)) (o % sectorSize)

def Device.Readable (dev : Device) (first : Addr) (count : Nat) : Prop :=
  ∀ i < count, dev.readable (first + BitVec.ofNat 32 i) = true

instance (dev : Device) (first : Addr) (count : Nat) : Decidable (dev.Readable first count) :=
  inferInstanceAs (Decidable (∀ i < count, dev.readable (first + BitVec.ofNat 32 i) = true))

/-- reserved_sectors is a field of two bytes. -/
structure FsInfo where
  fsOffset : Addr
  fatType : Nat
  rootDirSectors : Addr
  clusterSize : Nat
  fat1Start : Addr
  rootDirStart : Addr
  cluster2Start : Addr
  reserved : fat1Start.toNat < 2 ^ 16

/-- blk_buf, g_fat_sector and cache_valid. -/
structure FatCache where
  blk : Memory
  fatSector : Addr
  valid : Bool

def readSector (dev : Device) (mem : Memory) (blkno buf : Addr) (blkcnt : Nat) : Memory × Bool :=
  if dev.Readable blkno blkcnt then
    (fun a => if (a - buf).toNat < sectorSize * blkcnt then dev.blocks blkno (a - buf).toNat
      else mem a, true)
  else (dev.failed mem blkno buf blkcnt, false)

variable (dev : Device) (fs : FsInfo)

def readFsector (mem : Memory) (sector buf : Addr) (count : Nat) : Memory × Bool :=
  readSector dev mem (sector + fs.fsOffset) buf count

def cluster2fsector (cluster : Addr) : Addr :=
  fs.cluster2Start + (cluster - 2) * BitVec.ofNat 32 fs.clusterSize

/-! ## Entries of the table -/

def getFatEntry12 (g : FatCache) (cluster : Addr) : FatCache × Addr :=
  let fatSector := fs.fat1Start + (cluster + cluster / 2) / 512
  let fatOffs := (cluster + cluster / 2) % 512
  match readFsector dev fs g.blk fatSector 0 2 with
  | (blk, false) => ({ g with blk }, 0)
  | (blk, true) =>
    let entry := (blk.half fatOffs).setWidth 32
    ({ g with blk }, if cluster &&& 1 ≠ 0 then entry >>> 4 else entry &&& 0xfff)

/-- An entry of `width` bytes, which does not cross the end of a sector. -/
def getFatEntry (width : Addr) (entry : Memory → Addr → Addr) (g : FatCache) (cluster : Addr) :
    FatCache × Addr :=
  let fatSector := fs.fat1Start + cluster * width / 512
  let fatOffs := cluster * width % 512
  if g.valid ∧ g.fatSector = fatSector then (g, entry g.blk fatOffs)
  else
    match readFsector dev fs g.blk fatSector 0 1 with
    | (blk, false) => ({ g with blk }, 0)
    | (blk, true) => ({ g with blk, fatSector }, entry blk fatOffs)

def getFatEntry16 (g : FatCache) (cluster : Addr) : FatCache × Addr :=
  getFatEntry dev fs 2 (fun blk o => (blk.half o).setWidth 32) g cluster

def getFatEntry32 (g : FatCache) (cluster : Addr) : FatCache × Addr :=
  getFatEntry dev fs 4 (fun blk o => blk.word o &&& 0x0fffffff) g cluster

def fatGetFatEntry (g : FatCache) (cluster : Addr) : FatCache × Addr :=
  match fs.fatType with
  | 12 => getFatEntry12 dev fs g cluster
  | 16 => getFatEntry16 dev fs g cluster
  | 32 => getFatEntry32 dev fs g cluster
  | _ => (g, 0)

def endOfFile (cluster : Addr) : Bool :=
  match fs.fatType with
  | 12 => cluster = 0x0ff8 ∨ cluster = 0x0fff
  | 16 => cluster = 0xfff8 ∨ cluster = 0xffff
  | 32 => cluster = 0x0ffffff8 ∨ cluster = 0x0fffffff
  | _ => true

/-! ## The copy of a file

`none` stands for a loop that has used up its fuel. The int `txf` stays below `sz + cbytes`. -/

def FsInfo.cbytes : Nat := fs.clusterSize * sectorSize

/-- The inner loop: how many bytes lie one behind the other from `curr` on, and the cluster behind
them. -/
def consolidate (sz : Nat) : Nat → FatCache → Nat → Addr → Option (FatCache × Nat × Addr)
  | 0, _, _, _ => none
  | fuel + 1, g, txf, curr =>
    if sz > txf then
      let (g, next) := fatGetFatEntry dev fs g curr
      if next = curr + 1 then consolidate sz fuel g (txf + fs.cbytes) next
      else some (g, txf, next)
    else some (g, txf, curr)

def copyLoop : Nat → FatCache → Nat → Addr → Memory → Addr → Option (FatCache × Memory × Bool)
  | 0, _, _, _, _, _ => none
  | fuel + 1, g, sz, curr, mem, buf =>
    if sz > 0 then
      (consolidate dev fs sz fuel g fs.cbytes curr).bind fun (g, txf, next) =>
        match readFsector dev fs mem (cluster2fsector fs curr) buf (txf / sectorSize) with
        | (mem, false) => some (g, mem, false)
        | (mem, true) => copyLoop fuel g (sz - txf) next mem (buf + BitVec.ofNat 32 txf)
    else some (g, mem, true)

/-- The size as an int; a negative one copies nothing. -/
def toSize (size : Addr) : Nat := if size.toNat < 2 ^ 31 then size.toNat else 0

def fatCopyFile (fuel : Nat) (g : FatCache) (cluster size : Addr) (mem : Memory) (buf : Addr) :
    Option (FatCache × Memory × Bool) :=
  copyLoop dev fs fuel { g with valid := true, fatSector := -1 } (toSize size) cluster mem buf

/-! ## The loop behind `#else` -/

def readCluster (g : FatCache) (cluster : Addr) (mem : Memory) (buf : Addr) (size : Nat) :
    FatCache × Memory × Bool :=
  let sectors := if size / sectorSize ≥ fs.clusterSize then fs.clusterSize else size / sectorSize
  let rest := if size / sectorSize ≥ fs.clusterSize then 0 else size % sectorSize
  match readFsector dev fs mem (cluster2fsector fs cluster) buf sectors with
  | (mem, false) => (g, mem, false)
  | (mem, true) =>
    if rest ≠ 0 then
      match readFsector dev fs g.blk (cluster2fsector fs cluster + BitVec.ofNat 32 sectors) 0 1 with
      | (blk, false) => ({ g with blk }, mem, false)
      | (blk, true) =>
        let dest := buf + BitVec.ofNat 32 (sectors * sectorSize)
        ({ g with blk }, fun a => if (a - dest).toNat < rest then blk (a - dest) else mem a, true)
    else (g, mem, true)

def plainLoop : Nat → FatCache → Nat → Addr → Memory → Addr → Option (FatCache × Memory × Bool)
  | 0, _, _, _, _, _ => none
  | fuel + 1, g, sz, cluster, mem, buf =>
    if ¬ endOfFile fs cluster ∧ sz > 0 then
      let txf := min sz fs.cbytes
      match readCluster dev fs g cluster mem buf txf with
      | (g, mem, false) => some (g, mem, false)
      | (g, mem, true) =>
        let (g, next) := fatGetFatEntry dev fs g cluster
        plainLoop fuel g (sz - txf) next mem (buf + BitVec.ofNat 32 txf)
    else some (g, mem, true)

/-! ## The table without the sector that is kept -/

/-- The sectors that hold an entry. -/
def entrySector (cluster : Addr) : Addr :=
  match fs.fatType with
  | 12 => fs.fat1Start + (cluster + cluster / 2) / 512
  | 16 => fs.fat1Start + cluster * 2 / 512
  | _ => fs.fat1Start + cluster * 4 / 512

/-- The entry in a buffer that holds its sectors. -/
def entryIn (blk : Memory) (cluster : Addr) : Addr :=
  match fs.fatType with
  | 12 =>
    let entry := (blk.half ((cluster + cluster / 2) % 512)).setWidth 32
    if cluster &&& 1 ≠ 0 then entry >>> 4 else entry &&& 0xfff
  | 16 => (blk.half (cluster * 2 % 512)).setWidth 32
  | 32 => blk.word (cluster * 4 % 512) &&& 0x0fffffff
  | _ => 0

def entrySectors : Nat := if fs.fatType = 12 then 2 else 1

def sectorAt (sector : Addr) : Memory := fun o => dev.blocks (sector + fs.fsOffset) o.toNat

def fatEntry (cluster : Addr) : Addr := entryIn fs (sectorAt dev fs (entrySector fs cluster)) cluster

def EntryReadable (cluster : Addr) : Prop :=
  dev.Readable (entrySector fs cluster + fs.fsOffset) (entrySectors fs)

/-- A sector is kept only where it is compared, and then it is what the card has. -/
def CacheOk (g : FatCache) : Prop :=
  g.valid = false ∨ g.fatSector = -1 ∨
    (fs.fatType ≠ 12 ∧ ∀ o : Addr, o.toNat < sectorSize → g.blk o = sectorAt dev fs g.fatSector o)

variable {dev fs}

theorem readFsector_readable {sector : Addr} {count : Nat}
    (h : dev.Readable (sector + fs.fsOffset) count) (mem : Memory) (buf : Addr) :
    readFsector dev fs mem sector buf count =
      (fun a => if (a - buf).toNat < sectorSize * count then sectorAt dev fs sector (a - buf)
        else mem a, true) := if_pos h

/-- A transfer to blk_buf. -/
theorem readFsector_blk {sector : Addr} {count : Nat}
    (h : dev.Readable (sector + fs.fsOffset) count) (mem : Memory) :
    ∃ blk, readFsector dev fs mem sector 0 count = (blk, true) ∧
      ∀ o : Addr, o.toNat < sectorSize * count → blk o = sectorAt dev fs sector o := by
  refine ⟨_, readFsector_readable h mem 0, ?_⟩
  intro o ho
  rw [sub_zero, if_pos ho]

theorem readFsector_unreadable {sector : Addr} {count : Nat}
    (h : ¬ dev.Readable (sector + fs.fsOffset) count) (mem : Memory) (buf : Addr) :
    (readFsector dev fs mem sector buf count).2 = false := by
  rw [readFsector, readSector, if_neg h]

theorem fatSector_ne (cluster width : Addr) : fs.fat1Start + cluster * width / 512 ≠ -1 := by
  intro heq
  have hreserved := fs.reserved
  have hlt := (cluster * width).isLt
  have hsum := congrArg BitVec.toNat heq
  rw [BitVec.toNat_add, BitVec.toNat_udiv] at hsum
  simp at hsum
  omega

theorem half_congr {blk blk' : Memory} {o : Addr} (h : blk o = blk' o)
    (h' : blk (o + 1) = blk' (o + 1)) : blk.half o = blk'.half o := by
  rw [Memory.half, Memory.half, h, h']

theorem word_congr {blk blk' : Memory} {o : Addr}
    (h : ∀ k : Addr, k.toNat < 4 → blk (o + k) = blk' (o + k)) : blk.word o = blk'.word o := by
  have h0 := h 0 (by decide)
  rw [add_zero] at h0
  rw [Memory.word, Memory.word, h0, h 1 (by decide), h 2 (by decide), h 3 (by decide)]

/-- An entry of two or four bytes lies within its sector. -/
theorem offset_inside {width : Addr} (hw : width = 2 ∨ width = 4) (cluster : Addr) {k : Addr}
    (hk : k < width) : (cluster * width % 512 + k).toNat < sectorSize := by
  have hmod : (cluster * width % 512).toNat = cluster.toNat * width.toNat % 512 := by
    rw [BitVec.toNat_umod, BitVec.toNat_mul]
    change cluster.toNat * width.toNat % 2 ^ 32 % 512 = _
    exact Nat.mod_mod_of_dvd _ (by decide)
  have hlt := BitVec.lt_def.mp hk
  unfold sectorSize
  rcases hw with rfl | rfl
  · change _ = cluster.toNat * 2 % 512 at hmod
    bv_omega
  · change _ = cluster.toNat * 4 % 512 at hmod
    bv_omega

theorem getFatEntry_spec {width : Addr} {entry : Memory → Addr → Addr} {g : FatCache}
    {cluster : Addr} (hg : CacheOk dev fs g) (htype : fs.fatType ≠ 12)
    (hread : dev.Readable (fs.fat1Start + cluster * width / 512 + fs.fsOffset) 1)
    (hentry : ∀ blk blk' : Memory, (∀ o : Addr, o.toNat < sectorSize → blk o = blk' o) →
      entry blk (cluster * width % 512) = entry blk' (cluster * width % 512)) :
    ∃ g', getFatEntry dev fs width entry g cluster = (g',
        entry (sectorAt dev fs (fs.fat1Start + cluster * width / 512)) (cluster * width % 512)) ∧
      CacheOk dev fs g' ∧ g'.valid = g.valid := by
  unfold getFatEntry
  dsimp only
  split
  · next hkept =>
    refine ⟨g, ?_, hg, rfl⟩
    rcases hg with hvalid | hnone | ⟨_, hsame⟩
    · rw [hkept.1] at hvalid
      cases hvalid
    · rw [hkept.2] at hnone
      exact absurd hnone (fatSector_ne cluster width)
    · rw [← hkept.2, hentry _ _ hsame]
  · obtain ⟨blk, hblk, hsame⟩ := readFsector_blk hread g.blk
    rw [mul_one] at hsame
    rw [hblk]
    refine ⟨⟨blk, _, g.valid⟩, ?_, Or.inr (Or.inr ⟨htype, hsame⟩), rfl⟩
    dsimp only
    rw [hentry _ _ hsame]

theorem getFatEntry12_spec {g : FatCache} {cluster : Addr} (hg : CacheOk dev fs g)
    (htype : fs.fatType = 12)
    (hread : dev.Readable (fs.fat1Start + (cluster + cluster / 2) / 512 + fs.fsOffset) 2) :
    ∃ g', getFatEntry12 dev fs g cluster = (g', fatEntry dev fs cluster) ∧
      CacheOk dev fs g' ∧ g'.valid = g.valid := by
  obtain ⟨blk, hblk, hsame⟩ := readFsector_blk hread g.blk
  have hlt : ((cluster + cluster / 2) % 512).toNat < sectorSize := by
    rw [BitVec.toNat_umod]
    exact Nat.mod_lt _ (by decide)
  have hnext : ((cluster + cluster / 2) % 512 + 1).toNat < sectorSize * 2 := by
    unfold sectorSize at hlt ⊢
    generalize (cluster + cluster / 2) % 512 = o at *
    bv_omega
  refine ⟨{ g with blk }, ?_, ?_, rfl⟩
  · rw [getFatEntry12, hblk]
    simp only [fatEntry, entryIn, entrySector, htype]
    rw [half_congr (hsame _ (by omega)) (hsame _ hnext)]
  · rcases hg with hvalid | hnone | ⟨hother, _⟩
    · exact Or.inl hvalid
    · exact Or.inr (Or.inl hnone)
    · exact absurd htype hother

theorem fatGetFatEntry_spec {g : FatCache} {cluster : Addr} (hg : CacheOk dev fs g)
    (hread : EntryReadable dev fs cluster) :
    ∃ g', fatGetFatEntry dev fs g cluster = (g', fatEntry dev fs cluster) ∧
      CacheOk dev fs g' ∧ g'.valid = g.valid := by
  unfold EntryReadable entrySectors entrySector at hread
  have hinside := fun width hw k => @offset_inside width hw cluster k
  by_cases h12 : fs.fatType = 12
  · simp only [h12, if_true] at hread
    simp only [fatGetFatEntry, h12]
    exact getFatEntry12_spec hg h12 hread
  by_cases h16 : fs.fatType = 16
  · simp only [h16, fatGetFatEntry, fatEntry, entryIn, entrySector] at hread ⊢
    apply getFatEntry_spec hg h12 hread
    intro blk blk' h
    have hfirst := hinside 2 (Or.inl rfl) 0 (by decide)
    rw [add_zero] at hfirst
    rw [half_congr (h _ hfirst) (h _ (hinside 2 (Or.inl rfl) 1 (by decide)))]
  by_cases h32 : fs.fatType = 32
  · simp only [h32, fatGetFatEntry, fatEntry, entryIn, entrySector] at hread ⊢
    apply getFatEntry_spec hg h12 hread
    intro blk blk' h
    rw [word_congr fun k hk => h _ (hinside 4 (Or.inr rfl) k (BitVec.lt_def.mpr hk))]
  · refine ⟨g, ?_, hg, rfl⟩
    simp only [fatGetFatEntry, fatEntry, entryIn]

/-! ## The contents of a file -/

variable (dev fs)

/-- The clusters of a file, by the table. -/
def chain (cluster : Addr) (i : Nat) : Addr := (fatEntry dev fs)^[i] cluster

/-- The first block of a cluster. -/
def clusterBlock (cluster : Addr) : Addr := cluster2fsector fs cluster + fs.fsOffset

def contents (cluster : Addr) (o : Nat) : Byte :=
  dev.blocks (clusterBlock fs (chain dev fs cluster (o / fs.cbytes))) (o % fs.cbytes)

/-- The memory with the first `size` bytes of a file at `buf`. -/
def copied (cluster : Addr) (size : Nat) (mem : Memory) (buf : Addr) : Memory :=
  fun a => if (a - buf).toNat < size then contents dev fs cluster (a - buf).toNat else mem a

def ClustersReadable (cluster : Addr) (n : Nat) : Prop :=
  ∀ i < n, dev.Readable (clusterBlock fs (chain dev fs cluster i)) fs.clusterSize

/-- The table can be read at each cluster but the last. -/
def LinksReadable (cluster : Addr) (n : Nat) : Prop :=
  ∀ i, i + 1 < n → EntryReadable dev fs (chain dev fs cluster i)

variable {dev fs}

theorem chain_add (cluster : Addr) (i j : Nat) :
    chain dev fs (chain dev fs cluster i) j = chain dev fs cluster (i + j) := by
  rw [chain, chain, chain, ← Function.iterate_add_apply, Nat.add_comm]

theorem chain_succ (cluster : Addr) (i : Nat) :
    chain dev fs cluster (i + 1) = chain dev fs (fatEntry dev fs cluster) i :=
  Function.iterate_succ_apply _ _ _

theorem blocks_add (first : Addr) (i o : Nat) :
    dev.blocks (first + BitVec.ofNat 32 i) o = dev.blocks first (i * sectorSize + o) := by
  have hpos : 0 < sectorSize := by decide
  rw [Device.blocks, Device.blocks, Nat.add_comm (i * sectorSize), Nat.add_mul_div_right _ _ hpos,
    Nat.add_mul_mod_self_right, Nat.add_comm _ i, BitVec.ofNat_add, add_assoc]

theorem clusterBlock_add (cluster : Addr) (i : Nat) :
    clusterBlock fs (cluster + BitVec.ofNat 32 i) =
      clusterBlock fs cluster + BitVec.ofNat 32 (i * fs.clusterSize) := by
  unfold clusterBlock cluster2fsector
  rw [BitVec.ofNat_mul]
  ring

/-- Clusters one behind the other are one run of blocks. -/
theorem contents_run {cluster : Addr} {k : Nat} (hsize : 0 < fs.clusterSize)
    (hrun : ∀ i < k, chain dev fs cluster i = cluster + BitVec.ofNat 32 i) {o : Nat}
    (ho : o < k * fs.cbytes) :
    contents dev fs cluster o = dev.blocks (clusterBlock fs cluster) o := by
  have hcbytes : 0 < fs.cbytes := Nat.mul_pos hsize (by decide)
  have hdiv : o / fs.cbytes * fs.clusterSize * sectorSize = o / fs.cbytes * fs.cbytes :=
    Nat.mul_assoc _ _ _
  rw [contents, hrun _ (Nat.div_lt_of_lt_mul (by rwa [Nat.mul_comm])), clusterBlock_add,
    blocks_add, hdiv, Nat.div_add_mod']

theorem contents_behind (cluster : Addr) (k o : Nat) (hsize : 0 < fs.clusterSize) :
    contents dev fs cluster (k * fs.cbytes + o) =
      contents dev fs (chain dev fs cluster k) o := by
  have hcbytes : 0 < fs.cbytes := Nat.mul_pos hsize (by decide)
  rw [contents, contents, chain_add, Nat.add_comm (k * fs.cbytes),
    Nat.add_mul_div_right _ _ hcbytes, Nat.add_mul_mod_self_right, Nat.add_comm k]

theorem readable_run {cluster : Addr} {k : Nat}
    (hrun : ∀ i < k, chain dev fs cluster i = cluster + BitVec.ofNat 32 i) :
    dev.Readable (clusterBlock fs cluster) (k * fs.clusterSize) ↔
      ClustersReadable dev fs cluster k := by
  unfold Device.Readable ClustersReadable Device.Readable
  have hat : ∀ i < k, ∀ j, clusterBlock fs (chain dev fs cluster i) + BitVec.ofNat 32 j =
      clusterBlock fs cluster + BitVec.ofNat 32 (i * fs.clusterSize + j) := by
    intro i hi j
    rw [hrun i hi, clusterBlock_add, BitVec.ofNat_add, add_assoc]
  constructor
  · intro h i hi j hj
    rw [hat i hi]
    apply h
    calc i * fs.clusterSize + j < i * fs.clusterSize + fs.clusterSize := by omega
      _ = (i + 1) * fs.clusterSize := (Nat.succ_mul _ _).symm
      _ ≤ k * fs.clusterSize := Nat.mul_le_mul_right _ hi
  · intro h b hb
    have hsize : 0 < fs.clusterSize := Nat.pos_of_mul_pos_left (Nat.zero_lt_of_lt hb)
    have hi : b / fs.clusterSize < k := Nat.div_lt_of_lt_mul (by rwa [Nat.mul_comm])
    have hblock := h _ hi _ (Nat.mod_lt b hsize)
    rwa [hat _ hi, Nat.div_add_mod'] at hblock

theorem clustersReadable_add (cluster : Addr) (k n : Nat) :
    ClustersReadable dev fs cluster (k + n) ↔
      ClustersReadable dev fs cluster k ∧
        ClustersReadable dev fs (chain dev fs cluster k) n := by
  unfold ClustersReadable
  constructor
  · intro h
    constructor
    · intro i hi
      exact h i (by omega)
    · intro i hi
      rw [chain_add]
      exact h _ (by omega)
  · intro h i hi
    by_cases hlt : i < k
    · exact h.1 i hlt
    · have hrest := h.2 (i - k) (by omega)
      rwa [chain_add, Nat.add_sub_cancel' (Nat.not_lt.mp hlt)] at hrest

theorem copied_add {cluster : Addr} {k len : Nat} (hsize : 0 < fs.clusterSize)
    (hmem : k * fs.cbytes + len ≤ 2 ^ 32) (mem : Memory) (buf : Addr) :
    copied dev fs (chain dev fs cluster k) len (copied dev fs cluster (k * fs.cbytes) mem buf)
        (buf + BitVec.ofNat 32 (k * fs.cbytes)) =
      copied dev fs cluster (k * fs.cbytes + len) mem buf := by
  funext a
  unfold copied
  rw [← contents_behind _ _ _ hsize]
  generalize k * fs.cbytes = first at *
  have hlt := (a - buf).isLt
  rw [sub_add_eq_sub_sub]
  generalize a - buf = d at *
  by_cases hfirst : d.toNat < first
  · have hfar : ¬ (d - BitVec.ofNat 32 first).toNat < len := by bv_omega
    rw [if_neg hfar, if_pos hfirst, if_pos (by omega)]
  · have hsub : (d - BitVec.ofNat 32 first).toNat = d.toNat - first := by bv_omega
    rw [hsub, Nat.add_sub_cancel' (Nat.not_lt.mp hfirst), if_neg hfirst]
    by_cases hlen : d.toNat < first + len
    · rw [if_pos hlen, if_pos (by omega)]
    · rw [if_neg hlen, if_neg (by omega)]

/-! ## The copy in runs of clusters -/

theorem consolidate_spec {sz fuel : Nat} {g : FatCache} {txf n : Nat} {curr : Addr}
    (hg : CacheOk dev fs g) (hn : sz ≤ txf + n * fs.cbytes) (hfuel : n < fuel)
    (hlinks : ∀ i, txf + i * fs.cbytes < sz → EntryReadable dev fs (chain dev fs curr i))
    (htxf : txf < sz + fs.cbytes) :
    ∃ k g' next, consolidate dev fs sz fuel g txf curr = some (g', txf + k * fs.cbytes, next) ∧
      CacheOk dev fs g' ∧ (∀ i < k + 1, chain dev fs curr i = curr + BitVec.ofNat 32 i) ∧
      (txf + k * fs.cbytes < sz → next = chain dev fs curr (k + 1)) ∧
      txf + k * fs.cbytes < sz + fs.cbytes := by
  induction fuel generalizing g txf n curr with
  | zero => exact absurd hfuel (Nat.not_lt_zero n)
  | succ fuel ih =>
    have hself : ∀ i < 0 + 1, chain dev fs curr i = curr + BitVec.ofNat 32 i := by
      intro i hi
      obtain rfl : i = 0 := by omega
      exact (add_zero curr).symm
    rw [consolidate]
    split
    · next hlt =>
      have hentry := hlinks 0 (by omega)
      obtain ⟨g', hget, hg', _⟩ := fatGetFatEntry_spec hg hentry
      change fatGetFatEntry dev fs g curr = _ at hget
      rw [hget]
      dsimp only
      split
      · next hnext =>
        change fatEntry dev fs curr = _ at hnext
        obtain ⟨n, rfl⟩ : ∃ m, n = m + 1 := by
          apply Nat.exists_eq_succ_of_ne_zero
          rintro rfl
          omega
        have hlater : ∀ i, txf + fs.cbytes + i * fs.cbytes < sz →
            EntryReadable dev fs (chain dev fs (fatEntry dev fs curr) i) := by
          intro i hi
          rw [← chain_succ]
          apply hlinks (i + 1)
          rw [Nat.succ_mul]
          omega
        rw [Nat.succ_mul] at hn
        obtain ⟨k, g'', next, hrest, hg'', hrun, hbehind, hle⟩ :=
          @ih g' (txf + fs.cbytes) n (fatEntry dev fs curr) hg' (by omega) (by omega) hlater
            (by omega)
        have hmul : txf + fs.cbytes + k * fs.cbytes = txf + (k + 1) * fs.cbytes := by
          rw [Nat.succ_mul]
          omega
        rw [hmul] at hrest hbehind hle
        refine ⟨k + 1, g'', next, hrest, hg'', ?_, ?_, hle⟩
        · intro i hi
          cases i with
          | zero => exact hself 0 (by omega)
          | succ i =>
            rw [chain_succ, hrun i (by omega), hnext, BitVec.ofNat_add, add_assoc,
              add_comm (BitVec.ofNat 32 i)]
            rfl
        · intro h
          rw [hbehind h, ← chain_succ]
      · refine ⟨0, g', fatEntry dev fs curr, ?_, hg', hself, fun _ => rfl, by omega⟩
        rw [Nat.zero_mul, Nat.add_zero]
        rfl
    · refine ⟨0, g, curr, by simp, hg, hself, ?_, by omega⟩
      intro h
      omega

theorem copied_zero (cluster : Addr) (mem : Memory) (buf : Addr) :
    copied dev fs cluster 0 mem buf = mem := by
  funext a
  exact if_neg (Nat.not_lt_zero _)

/-- The transfer of a run. -/
theorem readFsector_run {cluster : Addr} {k : Nat} (hsize : 0 < fs.clusterSize)
    (hrun : ∀ i < k, chain dev fs cluster i = cluster + BitVec.ofNat 32 i)
    (hread : ClustersReadable dev fs cluster k) (mem : Memory) (buf : Addr) :
    readFsector dev fs mem (cluster2fsector fs cluster) buf (k * fs.clusterSize) =
      (copied dev fs cluster (k * fs.cbytes) mem buf, true) := by
  have hbytes : sectorSize * (k * fs.clusterSize) = k * fs.cbytes := by
    rw [FsInfo.cbytes, Nat.mul_comm, Nat.mul_assoc]
  rw [readFsector_readable ((readable_run hrun).mpr hread), hbytes]
  congr 1
  funext a
  unfold copied
  split
  · next hlt =>
    rw [contents_run hsize hrun hlt]
    rw [sectorAt]
    rfl
  · rfl

theorem copyLoop_spec {fuel n sz : Nat} {g : FatCache} {curr : Addr} {mem : Memory} {buf : Addr}
    (hsize : 0 < fs.clusterSize) (hg : CacheOk dev fs g) (hn : sz ≤ n * fs.cbytes)
    (hlast : n * fs.cbytes < sz + fs.cbytes) (hfuel : n < fuel) (hmem : n * fs.cbytes ≤ 2 ^ 32)
    (hlinks : LinksReadable dev fs curr n) :
    ∃ g' mem' ok, copyLoop dev fs fuel g sz curr mem buf = some (g', mem', ok) ∧
      (ok = true ↔ ClustersReadable dev fs curr n) ∧
      (ok = true → mem' = copied dev fs curr (n * fs.cbytes) mem buf) := by
  have hcbytes : 0 < fs.cbytes := Nat.mul_pos hsize (by decide)
  induction fuel generalizing n sz g curr mem buf with
  | zero => exact absurd hfuel (Nat.not_lt_zero n)
  | succ fuel ih =>
    rw [copyLoop]
    split
    · next hpos =>
      obtain ⟨n, rfl⟩ : ∃ m, n = m + 1 := by
        apply Nat.exists_eq_succ_of_ne_zero
        rintro rfl
        omega
      have hsucc : (n + 1) * fs.cbytes = n * fs.cbytes + fs.cbytes := Nat.succ_mul _ _
      have hmore : ∀ i, fs.cbytes + i * fs.cbytes < sz →
          EntryReadable dev fs (chain dev fs curr i) := by
        intro i hi
        apply hlinks i
        apply Nat.lt_of_mul_lt_mul_right (a := fs.cbytes)
        rw [Nat.succ_mul]
        omega
      obtain ⟨k, g', next, hcons, hg', hrun, hbehind, hle⟩ :=
        @consolidate_spec dev fs sz fuel g fs.cbytes n curr hg (by omega) (by omega) hmore
          (by omega)
      have htxf : fs.cbytes + k * fs.cbytes = (k + 1) * fs.cbytes := by
        rw [Nat.succ_mul, Nat.add_comm]
      rw [htxf] at hcons hbehind hle
      have hsectors : (k + 1) * fs.cbytes / sectorSize = (k + 1) * fs.clusterSize := by
        rw [FsInfo.cbytes, ← Nat.mul_assoc]
        exact Nat.mul_div_cancel _ (by decide)
      obtain ⟨m, hm⟩ : ∃ m, n + 1 = k + 1 + m := by
        apply Nat.exists_eq_add_of_le
        apply Nat.le_of_lt_succ
        apply Nat.lt_of_mul_lt_mul_right (a := fs.cbytes)
        rw [Nat.succ_mul (n + 1)]
        omega
      have hsum : (n + 1) * fs.cbytes = (k + 1) * fs.cbytes + m * fs.cbytes := by
        rw [hm, Nat.add_mul]
      rw [hcons, Option.bind_some]
      dsimp only
      rw [hsectors, hsum, hm, clustersReadable_add]
      by_cases hread : ClustersReadable dev fs curr (k + 1)
      · rw [readFsector_run hsize hrun hread]
        dsimp only
        by_cases hleft : (k + 1) * fs.cbytes < sz
        · have hlinks' : LinksReadable dev fs (chain dev fs curr (k + 1)) m := by
            intro i hi
            rw [chain_add]
            exact hlinks _ (by omega)
          rw [hbehind hleft]
          obtain ⟨g'', mem', ok, hloop, hok, hcopied⟩ :=
            @ih m (sz - (k + 1) * fs.cbytes) g' _ (copied dev fs curr ((k + 1) * fs.cbytes) mem buf)
              (buf + BitVec.ofNat 32 ((k + 1) * fs.cbytes)) hg' (by omega) (by omega) (by omega)
              (by omega) hlinks'
          refine ⟨g'', mem', ok, hloop, ?_, ?_⟩
          · rw [hok, and_iff_right hread]
          · intro h
            rw [hcopied h, copied_add hsize (by omega)]
        · obtain rfl : m = 0 := by
            apply Nat.eq_zero_of_not_pos
            intro hpos
            have hle := Nat.mul_le_mul_right fs.cbytes hpos
            omega
          obtain ⟨fuel, rfl⟩ := Nat.exists_eq_add_of_le' (Nat.zero_lt_of_lt (by omega : n < fuel))
          have hdone : ¬ sz - (k + 1) * fs.cbytes > 0 := by omega
          refine ⟨g', _, true, if_neg hdone, ?_, ?_⟩
          · have hnone : ClustersReadable dev fs (chain dev fs curr (k + 1)) 0 := by
              intro i hi
              exact absurd hi (Nat.not_lt_zero i)
            simp only [true_iff]
            exact ⟨hread, hnone⟩
          · intro _
            rw [Nat.zero_mul]
            rfl
      · have hfail := readFsector_unreadable (mt (readable_run hrun).mp hread) mem buf
        generalize readFsector dev fs mem _ buf _ = r at hfail
        obtain ⟨mem', ok⟩ := r
        subst hfail
        refine ⟨g', mem', false, rfl, ?_, ?_⟩
        · simp [hread]
        · intro h
          cases h
    · next hzero =>
      obtain rfl : n = 0 := by
        apply Nat.eq_zero_of_not_pos
        intro hpos
        have hle := Nat.mul_le_mul_right fs.cbytes hpos
        omega
      refine ⟨g, mem, true, rfl, ?_, ?_⟩
      · simp [ClustersReadable]
      · intro _
        rw [Nat.zero_mul, copied_zero]

/-! ## The copy cluster by cluster -/

theorem contents_cluster {cluster : Addr} (hsize : 0 < fs.clusterSize) {o : Nat}
    (ho : o < fs.cbytes) : contents dev fs cluster o = dev.blocks (clusterBlock fs cluster) o := by
  apply contents_run hsize (k := 1)
  · intro i hi
    obtain rfl : i = 0 := by omega
    exact (add_zero cluster).symm
  · rwa [Nat.one_mul]

/-- The sectors of a cluster in one transfer. -/
theorem transfer_copied {cluster : Addr} {size : Nat} (hsize : 0 < fs.clusterSize)
    (hle : size ≤ fs.cbytes) (mem : Memory) (buf : Addr) :
    (fun a => if (a - buf).toNat < size then
        sectorAt dev fs (cluster2fsector fs cluster) (a - buf) else mem a) =
      copied dev fs cluster size mem buf := by
  funext a
  unfold copied
  split
  · next hlt => exact (contents_cluster hsize (Nat.lt_of_lt_of_le hlt hle)).symm
  · rfl

/-- The bytes of the last sector, which go through blk_buf. -/
theorem store_rest {cluster : Addr} {first rest : Nat} (hsize : 0 < fs.clusterSize)
    (hle : first + rest ≤ fs.cbytes) (hmem : first + rest ≤ 2 ^ 32) {blk : Memory}
    (hblk : ∀ o : Addr, o.toNat < rest →
      blk o = dev.blocks (clusterBlock fs cluster) (first + o.toNat)) (mem : Memory) (buf : Addr) :
    (fun a => if (a - (buf + BitVec.ofNat 32 first)).toNat < rest then
        blk (a - (buf + BitVec.ofNat 32 first)) else copied dev fs cluster first mem buf a) =
      copied dev fs cluster (first + rest) mem buf := by
  funext a
  unfold copied
  have hlt := (a - buf).isLt
  rw [sub_add_eq_sub_sub]
  generalize a - buf = d at *
  by_cases hfirst : d.toNat < first
  · have hfar : ¬ (d - BitVec.ofNat 32 first).toNat < rest := by bv_omega
    rw [if_neg hfar, if_pos hfirst, if_pos (by omega)]
  · have hsub : (d - BitVec.ofNat 32 first).toNat = d.toNat - first := by bv_omega
    rw [hsub, if_neg hfirst]
    by_cases hrest : d.toNat < first + rest
    · rw [if_pos (by omega), if_pos hrest, hblk _ (by omega), hsub,
        Nat.add_sub_cancel' (Nat.not_lt.mp hfirst),
        contents_cluster hsize (Nat.lt_of_lt_of_le hrest hle)]
    · rw [if_neg (by omega), if_neg hrest]

theorem readCluster_spec {g : FatCache} {cluster : Addr} {size : Nat} {mem : Memory} {buf : Addr}
    (hsize : 0 < fs.clusterSize) (hle : size ≤ fs.cbytes) (hmem : size ≤ 2 ^ 32)
    (hread : dev.Readable (clusterBlock fs cluster) fs.clusterSize) :
    ∃ g', readCluster dev fs g cluster mem buf size =
        (g', copied dev fs cluster size mem buf, true) ∧ g'.valid = g.valid := by
  have hdiv := Nat.div_add_mod size sectorSize
  have hmod : size % sectorSize < sectorSize := Nat.mod_lt _ (by decide)
  have hcbytes : fs.cbytes = sectorSize * fs.clusterSize := Nat.mul_comm _ _
  unfold readCluster
  by_cases hwhole : size / sectorSize ≥ fs.clusterSize
  · have hmul := Nat.mul_le_mul_left sectorSize hwhole
    obtain rfl : size = fs.cbytes := by omega
    simp only [if_pos hwhole]
    rw [readFsector_readable hread, ← hcbytes, transfer_copied hsize hle]
    exact ⟨g, rfl, rfl⟩
  · simp only [if_neg hwhole]
    generalize size / sectorSize = q at *
    generalize size % sectorSize = r at *
    have hq : q + 1 ≤ fs.clusterSize := by omega
    have hmul := Nat.mul_le_mul_left sectorSize hq
    rw [Nat.mul_succ] at hmul
    have hfirst : dev.Readable (cluster2fsector fs cluster + fs.fsOffset) q := by
      intro i hi
      exact hread i (by omega)
    rw [readFsector_readable hfirst, transfer_copied hsize (by omega)]
    dsimp only
    split
    · next hrest =>
      have hlast : dev.Readable
          (cluster2fsector fs cluster + BitVec.ofNat 32 q + fs.fsOffset) 1 := by
        intro i hi
        obtain rfl : i = 0 := by omega
        have hblock := hread q hq
        rw [clusterBlock, add_right_comm] at hblock
        exact (congrArg dev.readable (add_zero _)).trans hblock
      obtain ⟨blk, hblk, hsame⟩ := readFsector_blk hlast g.blk
      rw [hblk]
      refine ⟨{ g with blk }, ?_, rfl⟩
      have hblk' : ∀ o : Addr, o.toNat < r →
          blk o = dev.blocks (clusterBlock fs cluster) (q * sectorSize + o.toNat) := by
        intro o ho
        rw [hsame o (by omega), sectorAt, add_right_comm, ← blocks_add]
        rfl
      dsimp only
      rw [← hdiv, Nat.mul_comm sectorSize q] at hmem hle ⊢
      exact congrArg (fun mem => ({ g with blk }, mem, true))
        (store_rest hsize hle hmem hblk' mem buf)
    · next hnone =>
      obtain rfl : r = 0 := Decidable.not_not.mp hnone
      refine ⟨g, ?_, rfl⟩
      rw [← hdiv, Nat.add_zero]

theorem valid_fatGetFatEntry (g : FatCache) (cluster : Addr) :
    (fatGetFatEntry dev fs g cluster).1.valid = g.valid := by
  unfold fatGetFatEntry getFatEntry16 getFatEntry32 getFatEntry12 getFatEntry
  grind

theorem plainLoop_spec {fuel n sz : Nat} {g : FatCache} {curr : Addr} {mem : Memory} {buf : Addr}
    (hsize : 0 < fs.clusterSize) (hg : g.valid = false) (hn : sz ≤ n * fs.cbytes)
    (hlast : n * fs.cbytes < sz + fs.cbytes) (hfuel : n < fuel) (hmem : n * fs.cbytes ≤ 2 ^ 32)
    (hlinks : LinksReadable dev fs curr n) (hread : ClustersReadable dev fs curr n)
    (hlong : ∀ i < n, endOfFile fs (chain dev fs curr i) = false) :
    ∃ g', plainLoop dev fs fuel g sz curr mem buf =
      some (g', copied dev fs curr sz mem buf, true) := by
  have hcbytes : 0 < fs.cbytes := Nat.mul_pos hsize (by decide)
  induction fuel generalizing n sz g curr mem buf with
  | zero => exact absurd hfuel (Nat.not_lt_zero n)
  | succ fuel ih =>
    rw [plainLoop]
    by_cases hpos : sz > 0
    · obtain ⟨n, rfl⟩ : ∃ m, n = m + 1 := by
        apply Nat.exists_eq_succ_of_ne_zero
        rintro rfl
        omega
      have hsucc : (n + 1) * fs.cbytes = n * fs.cbytes + fs.cbytes := Nat.succ_mul _ _
      have hfirst := hlong 0 (Nat.succ_pos n)
      change endOfFile fs curr = false at hfirst
      have hcond : ¬ endOfFile fs curr = true ∧ sz > 0 := by
        rw [hfirst]
        exact ⟨Bool.false_ne_true, hpos⟩
      obtain ⟨g₁, hcluster, hg₁⟩ := @readCluster_spec dev fs g curr (min sz fs.cbytes) mem buf hsize
        (Nat.min_le_right _ _) (by omega) (hread 0 (Nat.succ_pos n))
      rw [if_pos hcond]
      dsimp only
      rw [hcluster]
      dsimp only
      obtain ⟨g₂, next, hget, hg₂, hnext⟩ : ∃ g₂ next,
          fatGetFatEntry dev fs g₁ curr = (g₂, next) ∧ g₂.valid = false ∧
            (0 < n → next = chain dev fs curr 1) := by
        refine ⟨_, _, rfl, ?_, ?_⟩
        · exact (valid_fatGetFatEntry g₁ curr).trans (hg₁.trans hg)
        · intro hn'
          obtain ⟨_, hentry, _⟩ := fatGetFatEntry_spec (Or.inl (hg₁.trans hg))
            (hlinks 0 (Nat.succ_lt_succ hn'))
          exact congrArg Prod.snd hentry
      rw [hget]
      dsimp only
      have hchain : ∀ i < n, chain dev fs next i = chain dev fs curr (i + 1) := by
        intro i hi
        rw [hnext (Nat.zero_lt_of_lt hi), chain_add, Nat.add_comm]
      have hlinks' : LinksReadable dev fs next n := by
        intro i hi
        rw [hchain i (by omega)]
        exact hlinks _ (by omega)
      have hread' : ClustersReadable dev fs next n := by
        intro i hi
        rw [hchain i hi]
        exact hread _ (by omega)
      have hlong' : ∀ i < n, endOfFile fs (chain dev fs next i) = false := by
        intro i hi
        rw [hchain i hi]
        exact hlong _ (by omega)
      obtain ⟨g₃, hrest⟩ := @ih n (sz - min sz fs.cbytes) g₂ next
        (copied dev fs curr (min sz fs.cbytes) mem buf)
        (buf + BitVec.ofNat 32 (min sz fs.cbytes)) hg₂ (by omega) (by omega) (by omega)
        (by omega) hlinks' hread' hlong'
      refine ⟨g₃, ?_⟩
      rw [hrest]
      cases n with
      | zero =>
        have hmin : min sz fs.cbytes = sz := by omega
        rw [hmin, Nat.sub_self, copied_zero]
      | succ n =>
        have hmul : (n + 1) * fs.cbytes = n * fs.cbytes + fs.cbytes := Nat.succ_mul _ _
        have hmin : min sz fs.cbytes = fs.cbytes := by omega
        have hadd := @copied_add dev fs curr 1 (sz - fs.cbytes) hsize (by omega) mem buf
        rw [Nat.one_mul, Nat.add_sub_cancel' (by omega)] at hadd
        rw [hmin, hnext (Nat.succ_pos n), hadd]
    · have hsz : sz = 0 := by omega
      rw [if_neg (fun h => hpos h.2), hsz, copied_zero]
      exact ⟨g, rfl⟩

/-! ## Both loops -/

variable (fs) in
def FsInfo.clusters (size : Nat) : Nat := (size + fs.cbytes - 1) / fs.cbytes

theorem clusters_spec (hsize : 0 < fs.clusterSize) (size : Nat) :
    size ≤ fs.clusters size * fs.cbytes ∧ fs.clusters size * fs.cbytes < size + fs.cbytes := by
  have hcbytes : 0 < fs.cbytes := Nat.mul_pos hsize (by decide)
  have hdiv := Nat.div_add_mod' (size + fs.cbytes - 1) fs.cbytes
  have hmod := Nat.mod_lt (size + fs.cbytes - 1) hcbytes
  unfold FsInfo.clusters
  omega

theorem fatCopyFile_spec {fuel : Nat} (g : FatCache) {cluster size : Addr} (mem : Memory)
    (buf : Addr) (hsize : 0 < fs.clusterSize) (hint : size.toNat + fs.cbytes ≤ 2 ^ 31)
    (hlinks : LinksReadable dev fs cluster (fs.clusters size.toNat))
    (hfuel : fs.clusters size.toNat < fuel) :
    ∃ g' mem' ok, fatCopyFile dev fs fuel g cluster size mem buf = some (g', mem', ok) ∧
      (ok = true ↔ ClustersReadable dev fs cluster (fs.clusters size.toNat)) ∧
      (ok = true →
        mem' = copied dev fs cluster (fs.clusters size.toNat * fs.cbytes) mem buf) := by
  have hcbytes : 0 < fs.cbytes := Nat.mul_pos hsize (by decide)
  obtain ⟨hn, hlast⟩ := clusters_spec hsize size.toNat
  rw [fatCopyFile, toSize, if_pos (by omega)]
  exact copyLoop_spec hsize (Or.inr (Or.inl rfl)) hn hlast hfuel (by omega) hlinks

def sampleEntry : Nat → BitVec 16
  | 0 => 0xfff8
  | 2 => 4
  | 5 => 6
  | 6 => 8
  | 1 | 4 | 8 => 0xffff
  | _ => 0

def sampleCard (others : Addr → Nat → Byte) : Device where
  sector b o :=
    if b = 2 then (sampleEntry (o / 2)).extractLsb' (8 * (o % 2)) 8 else others b o
  readable _ := true
  failed mem _ _ _ := mem

def sampleFs : FsInfo where
  fsOffset := 1
  fatType := 16
  rootDirSectors := 1
  clusterSize := 1
  fat1Start := 1
  rootDirStart := 41
  cluster2Start := 42
  reserved := Nat.one_lt_two_pow (Nat.succ_ne_zero 15)

def emptyCache : FatCache := ⟨fun _ => 0, -1, false⟩

theorem sample_links (others : Addr → Nat → Byte) (cluster : Addr) (n : Nat) :
    LinksReadable (sampleCard others) sampleFs cluster n := fun _ _ _ _ => rfl

theorem sample_clusters (others : Addr → Nat → Byte) (cluster : Addr) (n : Nat) :
    ClustersReadable (sampleCard others) sampleFs cluster n := fun _ _ _ _ => rfl

end FridaCI.Ipl
