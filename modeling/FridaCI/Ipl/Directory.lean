import FridaCI.Ipl.Boot
import FridaCI.Ipl.FatFs

/-!
# The boot file of the card

The rest of ipl/boards/mx6q-sabrelite/fat-fs.c: the boot records, which say where the table, the
root directory and the clusters lie, and the search for a file by its name. sdmmc_load_file in
main.c comes after them; whether there is a card that can be initialised is not known here.
-/

namespace FridaCI.Ipl

set_option autoImplicit false

/-! ## Boot records -/

/-- `for (n = 0; x >= step; n++) x -= step;`, or none if it is still running. -/
def countLoop (step : Int) : Nat → Int → Nat → Option Nat
  | 0, _, _ => none
  | fuel + 1, x, n => if x ≥ step then countLoop step fuel (x - step) (n + 1) else some n

section Fields
variable (bpb : Memory)

def secSize : Nat := (bpb.half 11).toNat

def secPerClus : Nat := (bpb 13).toNat

def numRsvdSecs : Addr := (bpb.half 14).setWidth 32

def numFats : Addr := (bpb 16).setWidth 32

def numRootEnts : Nat := (bpb.half 17).toNat

def totalSectors : Addr :=
  if bpb.half 19 = 0 then bpb.word 32 else (bpb.half 19).setWidth 32

def fatSize : Addr := if bpb.half 22 = 0 then bpb.word 36 else (bpb.half 22).setWidth 32

def rootClus : Addr := bpb.word 44

def bpbSig : BitVec 16 := bpb.half 510

end Fields

theorem reserved_lt (bpb : Memory) : (numRsvdSecs bpb).toNat < 2 ^ 16 := by
  rw [numRsvdSecs, BitVec.toNat_setWidth_of_le (by omega)]
  exact (bpb.half 14).isLt

def fatDetectType (fuel : Nat) (s : Loader) (fsOffset : Addr) (bpb : Memory) :
    Option (Loader × Option FsInfo) :=
  if bpbSig bpb ≠ 0xaa55 then some (s.putstr "BPB signature is wrong\n", none)
  else
    (countLoop (secSize bpb) fuel (numRootEnts bpb * 32 + secSize bpb - 1) 0).bind fun ns =>
    let rootDirSectors := BitVec.ofNat 32 ns
    let reservedSectors := numRsvdSecs bpb
    let dataSectors :=
      totalSectors bpb - (reservedSectors + numFats bpb * fatSize bpb + rootDirSectors)
    let clusterSize := secPerClus bpb
    (countLoop clusterSize fuel dataSectors.toInt 0).map fun countOfClusters =>
    let fat2Start := reservedSectors + fatSize bpb
    let rootDirStart := fat2Start + fatSize bpb
    let cluster2Start :=
      rootDirStart + BitVec.ofNat 32 ((numRootEnts bpb * 32 + (512 - 1)) / 512)
    let (fatType, rootDirStart) :=
      if countOfClusters < 4085 then (12, rootDirStart)
      else if countOfClusters < 65525 then (16, rootDirStart)
      else (32, rootClus bpb)
    (s, some { fsOffset, fatType, rootDirSectors, clusterSize, fat1Start := reservedSectors,
               rootDirStart, cluster2Start, reserved := reserved_lt bpb })

/-- The boot records go to the two halves of blk_buf. -/
def fatReadMbr (dev : Device) (fuel : Nat) (g : FatCache) (s : Loader) :
    Option (FatCache × Loader × Option FsInfo) :=
  match readSector dev g.blk 0 0 1 with
  | (blk, false) => some ({ g with blk }, s.putstr "   Error: cannot read MBR\n", none)
  | (blk, true) =>
    let sign := blk.half 510
    if sign ≠ 0xaa55 then
      some ({ g with blk }, ((s.putstr "   Error: MBR signature (").puthex
        (sign.setWidth 32)).putstr ") is wrong\n", none)
    else if blk.word 458 = 0 then
      some ({ g with blk }, s.putstr "   Error: No information in partition 0.\n", none)
    else
      let fsOffset := blk.word 454
      match readSector dev blk (0 + fsOffset) 512 1 with
      | (blk, false) => some ({ g with blk }, s.putstr "   Error: cannot read BPB\n", none)
      | (blk, true) =>
        (fatDetectType fuel s fsOffset (header blk 512)).map fun
          | (s, none) => ({ g with blk }, s.putstr "   error detecting BPB type\n", none)
          | (s, some fs) => ({ g with blk }, s, some fs)

/-! ## The directory -/

structure DirEntry where
  shortName : List Byte
  clustHi : BitVec 16
  clustLo : BitVec 16
  size : Addr

/-- The entry `ent` of a sector in blk_buf. -/
def dirEntry (blk : Memory) (ent : Nat) : DirEntry :=
  let e := BitVec.ofNat 32 (32 * ent)
  ⟨(List.range 11).map fun i => blk (e + BitVec.ofNat 32 i), blk.half (e + 20),
    blk.half (e + 26), blk.word (e + 28)⟩

def entUnused : Byte := 0xe5

def entEnd : Byte := 0

/-- The first characters of a name, 11 at most. -/
def DirEntry.named (e : DirEntry) (name : List Byte) : Bool := (name.take 11).isPrefixOf e.shortName

def clustLow (e : DirEntry) : Addr := e.clustLo.setWidth 32

def getCluster (e : DirEntry) : Addr := e.clustHi ++ e.clustLo

/-- What the entries of a sector or of several come to. -/
inductive Found where
  | file (clust size : Addr)
  | last
  | more

def entriesInSector : Nat := 16

section Search
variable (clust : DirEntry → Addr) (name : List Byte) (dev : Device) (fs : FsInfo)

def entryLoop (blk : Memory) : Nat → Nat → Found
  | 0, _ => .more
  | left + 1, ent =>
    let e := dirEntry blk ent
    if e.shortName.head? = some entEnd then .last
    else if e.shortName.head? = some entUnused then entryLoop blk left (ent + 1)
    else if ¬ e.named name ∨ clust e = 0 then entryLoop blk left (ent + 1)
    else .file (clust e) e.size

/-- The sectors from `sector` on, or none after one that cannot be read. -/
def sectorLoop : Nat → FatCache → Addr → FatCache × Option Found
  | 0, g, _ => (g, some .more)
  | left + 1, g, sector =>
    match readFsector dev fs g.blk sector 0 1 with
    | (blk, false) => ({ g with blk }, none)
    | (blk, true) =>
      match entryLoop clust name blk entriesInSector 0 with
      | .more => sectorLoop left { g with blk } (sector + 1)
      | found => ({ g with blk }, some found)

end Search

variable (dev : Device) (fs : FsInfo) (fuel : Nat) (s : Loader) (buf : Addr) (name : List Byte)

/-- A file that has been found. -/
def loadFile (g : FatCache) (clust size : Addr) : Option (FatCache × Loader × Bool) :=
  (fatCopyFile dev fs fuel g clust size s.mem buf).map fun (g, mem, ok) => (g, { s with mem }, ok)

/-- The root directory has a fixed place. An end mark ends it. -/
def copyNamedFileFat16 (g : FatCache) : Option (FatCache × Loader × Bool) :=
  let stop := fs.rootDirStart + fs.rootDirSectors
  match sectorLoop clustLow name dev fs (stop.toNat - fs.rootDirStart.toNat) g fs.rootDirStart with
  | (g, none) => some (g, s.putstr "read_fsector failed!", false)
  | (g, some (.file clust size)) => loadFile dev fs fuel s buf g clust size
  | (g, some _) => some (g, s, false)

/-- The root directory is a file. An end mark ends its cluster. -/
def clusterLoop : Nat → FatCache → Addr → Option (FatCache × Loader × Bool)
  | 0, _, _ => none
  | left + 1, g, dirClust =>
    if endOfFile fs dirClust then some (g, s, false)
    else
      match sectorLoop getCluster name dev fs fs.clusterSize g (cluster2fsector fs dirClust) with
      | (g, none) => some (g, s, false)
      | (g, some (.file clust size)) => loadFile dev fs fuel s buf g clust size
      | (g, some _) =>
        let (g, next) := fatGetFatEntry dev fs g dirClust
        clusterLoop left g next

def copyNamedFileFat32 (g : FatCache) : Option (FatCache × Loader × Bool) :=
  clusterLoop dev fs fuel s buf name fuel g fs.rootDirStart

def fatCopyNamedFile (g : FatCache) : Option (FatCache × Loader × Bool) :=
  match fs.fatType with
  | 12 | 16 =>
    (copyNamedFileFat16 dev fs fuel s buf name g).map fun (g, s, ok) =>
      (g, if ok then s else s.putstr "copy_named_file_fat16 failed!\n", ok)
  | 32 =>
    (copyNamedFileFat32 dev fs fuel s buf name g).map fun (g, s, ok) =>
      (g, if ok then s else s.putstr "copy_named_file_fat32 failed!\n", ok)
  | type =>
    some (g, ((s.putstr "Unsupport file system: ").puthex (BitVec.ofNat 32 type)).putstr " \n",
      false)

/-- `card` is none where there is no card or where it cannot be initialised. -/
def sdmmcLoadFile (card : Option Device) (fuel : Nat) (g : FatCache) (s : Loader) (address : Addr)
    (fn : List Byte) : Option (FatCache × Loader × Bool) :=
  match card with
  | none => some (g, s, false)
  | some dev =>
    (fatReadMbr dev fuel g (s.putstr "Load QNX image from SDMMC...\n")).bind fun
      | (g, s, none) => some (g, s, false)
      | (g, s, some fs) => fatCopyNamedFile dev fs fuel s address fn g

/-! ## The search as a list -/

def DirEntry.used (e : DirEntry) : Bool := e.shortName.head? ≠ some entEnd

def DirEntry.wanted (clust : DirEntry → Addr) (name : List Byte) (e : DirEntry) : Bool :=
  e.shortName.head? ≠ some entUnused ∧ e.named name ∧ clust e ≠ 0

def firstFile (clust : DirEntry → Addr) (name : List Byte) (l : List DirEntry) :
    Option (Addr × Addr) :=
  ((l.takeWhile DirEntry.used).find? (DirEntry.wanted clust name)).map fun e => (clust e, e.size)

/-- The entries of `n` sectors. -/
def entries : Nat → Addr → List DirEntry
  | 0, _ => []
  | n + 1, sector =>
    (List.range' 0 entriesInSector).map (dirEntry (sectorAt dev fs sector)) ++
      entries n (sector + 1)

def Found.ofList (clust : DirEntry → Addr) (name : List Byte) (l : List DirEntry) : Found :=
  match firstFile clust name l with
  | some (clust, size) => .file clust size
  | none => if l.all DirEntry.used then .more else .last

section List
variable {clust : DirEntry → Addr} {name : List Byte}

theorem ofList_cons (e : DirEntry) (l : List DirEntry) :
    Found.ofList clust name (e :: l) =
      if e.shortName.head? = some entEnd then .last
      else if e.wanted clust name then .file (clust e) e.size else .ofList clust name l := by
  unfold Found.ofList firstFile
  by_cases hend : e.shortName.head? = some entEnd
  · have hused : e.used = false := by simp [DirEntry.used, hend]
    rw [if_pos hend, List.takeWhile_cons_of_neg (by simp [hused])]
    simp [hused]
  · have hused : e.used = true := by simp [DirEntry.used, hend]
    rw [if_neg hend, List.takeWhile_cons_of_pos hused]
    by_cases hwanted : e.wanted clust name = true
    · rw [List.find?_cons_of_pos hwanted, if_pos hwanted]
      rfl
    · rw [List.find?_cons_of_neg hwanted, if_neg hwanted]
      simp [hused]

theorem ofList_cases (l : List DirEntry) :
    (∃ file, firstFile clust name l = some file ∧
      Found.ofList clust name l = .file file.1 file.2) ∨
    (firstFile clust name l = none ∧
      (Found.ofList clust name l = .more ∨ Found.ofList clust name l = .last)) := by
  unfold Found.ofList
  cases firstFile clust name l with
  | some file => exact Or.inl ⟨file, rfl, rfl⟩
  | none =>
    refine Or.inr ⟨rfl, ?_⟩
    dsimp only
    split
    · exact Or.inl rfl
    · exact Or.inr rfl

theorem ofList_append (l l' : List DirEntry) :
    Found.ofList clust name (l ++ l') =
      match Found.ofList clust name l with
      | .more => Found.ofList clust name l'
      | found => found := by
  induction l with
  | nil => rfl
  | cons e l ih =>
    rw [List.cons_append, ofList_cons, ofList_cons, ih]
    split
    · rfl
    · split
      · rfl
      · rfl

theorem entryLoop_eq (blk : Memory) (left ent : Nat) :
    entryLoop clust name blk left ent =
      Found.ofList clust name ((List.range' ent left).map (dirEntry blk)) := by
  induction left generalizing ent with
  | zero => rfl
  | succ left ih =>
    rw [entryLoop, List.range'_succ, List.map_cons, ofList_cons, ih]
    split
    · rfl
    · next hend =>
      unfold DirEntry.wanted
      grind

end List

section Loops
variable {dev : Device} {fs : FsInfo} {clust : DirEntry → Addr} {name : List Byte}

theorem dirEntry_congr {blk blk' : Memory}
    (h : ∀ o : Addr, o.toNat < sectorSize → blk o = blk' o) {ent : Nat}
    (hent : ent < entriesInSector) : dirEntry blk ent = dirEntry blk' ent := by
  have hat : ∀ k : Nat, k < 32 →
      (BitVec.ofNat 32 (32 * ent) + BitVec.ofNat 32 k).toNat < sectorSize := by
    intro k hk
    unfold entriesInSector at hent
    unfold sectorSize
    bv_omega
  have hsame : ∀ k : Nat, k < 32 → blk (BitVec.ofNat 32 (32 * ent) + BitVec.ofNat 32 k) =
      blk' (BitVec.ofNat 32 (32 * ent) + BitVec.ofNat 32 k) := fun k hk => h _ (hat k hk)
  have hname : ((List.range 11).map fun i =>
      blk (BitVec.ofNat 32 (32 * ent) + BitVec.ofNat 32 i)) =
      (List.range 11).map fun i => blk' (BitVec.ofNat 32 (32 * ent) + BitVec.ofNat 32 i) := by
    apply List.map_congr_left
    intro i hi
    have hlt := List.mem_range.mp hi
    exact hsame i (by omega)
  have hadd : ∀ a b : Nat, BitVec.ofNat 32 (32 * ent) + BitVec.ofNat 32 a + BitVec.ofNat 32 b =
      BitVec.ofNat 32 (32 * ent) + BitVec.ofNat 32 (a + b) := by
    intro a b
    rw [BitVec.ofNat_add, add_assoc]
  have hhalf : ∀ k : Nat, k < 31 → blk.half (BitVec.ofNat 32 (32 * ent) + BitVec.ofNat 32 k) =
      blk'.half (BitVec.ofNat 32 (32 * ent) + BitVec.ofNat 32 k) := by
    intro k hk
    apply half_congr (hsame k (by omega))
    have hnext := hsame (k + 1) (by omega)
    rwa [← hadd] at hnext
  have hword : blk.word (BitVec.ofNat 32 (32 * ent) + 28) =
      blk'.word (BitVec.ofNat 32 (32 * ent) + 28) := by
    apply word_congr
    intro k hk
    have hlast := hsame (28 + k.toNat) (by omega)
    rwa [← hadd, BitVec.ofNat_toNat, BitVec.setWidth_eq] at hlast
  unfold dirEntry
  dsimp only
  rw [hname, hword]
  congr 1
  · exact hhalf 20 (by omega)
  · exact hhalf 26 (by omega)

theorem sectorLoop_spec {left : Nat} {g : FatCache} {sector : Addr}
    (hread : dev.Readable (sector + fs.fsOffset) left) :
    ∃ g', sectorLoop clust name dev fs left g sector =
        (g', some (Found.ofList clust name (entries dev fs left sector))) ∧
      g'.valid = g.valid := by
  induction left generalizing g sector with
  | zero => exact ⟨g, rfl, rfl⟩
  | succ left ih =>
    have hfirst : dev.Readable (sector + fs.fsOffset) 1 := by
      intro i hi
      exact hread i (by omega)
    have hrest : dev.Readable (sector + 1 + fs.fsOffset) left := by
      intro i hi
      have hnext := hread (i + 1) (by omega)
      rwa [BitVec.ofNat_add, add_comm (BitVec.ofNat 32 i), ← add_assoc,
        add_right_comm sector] at hnext
    obtain ⟨blk, hblk, hsame⟩ := readFsector_blk hfirst g.blk
    rw [mul_one] at hsame
    have hentries : entryLoop clust name blk entriesInSector 0 =
        Found.ofList clust name
          ((List.range' 0 entriesInSector).map (dirEntry (sectorAt dev fs sector))) := by
      rw [entryLoop_eq]
      congr 1
      apply List.map_congr_left
      intro ent hent
      apply dirEntry_congr hsame
      simpa using hent
    rw [sectorLoop, hblk, entries, ofList_append]
    dsimp only
    rw [hentries]
    split
    · exact ih hrest
    · exact ⟨{ g with blk }, rfl, rfl⟩

end Loops

/-! ## The file that is found -/

/-- The blocks of the root directory, where it has a fixed place. -/
def FsInfo.rootSectors (fs : FsInfo) : Nat :=
  (fs.rootDirStart + fs.rootDirSectors).toNat - fs.rootDirStart.toNat

def clusterFile (clust : Addr) : Option (Addr × Addr) :=
  firstFile getCluster name (entries dev fs fs.clusterSize (cluster2fsector fs clust))

/-- The cluster and the size of a file by its name. The root directory has `n` clusters, where it
is a file. -/
def findFile (n : Nat) : Option (Addr × Addr) :=
  if fs.fatType = 32 then
    (List.range n).findSome? fun i => clusterFile dev fs name (chain dev fs fs.rootDirStart i)
  else firstFile clustLow name (entries dev fs fs.rootSectors fs.rootDirStart)

structure RootFile (clust : Addr) (n : Nat) : Prop where
  long : ∀ i < n, endOfFile fs (chain dev fs clust i) = false
  ends : endOfFile fs (chain dev fs clust n) = true
  clusters : ClustersReadable dev fs clust n
  links : ∀ i < n, EntryReadable dev fs (chain dev fs clust i)

/-- The root directory can be read. -/
def Searchable (n : Nat) : Prop :=
  if fs.fatType = 32 then RootFile dev fs fs.rootDirStart n
  else (fs.fatType = 12 ∨ fs.fatType = 16) ∧
    dev.Readable (fs.rootDirStart + fs.fsOffset) fs.rootSectors

def loadFound (g : FatCache) : Option (Addr × Addr) → Option (FatCache × Loader × Bool)
  | none => some (g, s, false)
  | some (clust, size) => loadFile dev fs fuel s buf g clust size

variable {dev fs fuel s buf name}

theorem RootFile.next {clust : Addr} {n : Nat} (h : RootFile dev fs clust (n + 1)) :
    RootFile dev fs (fatEntry dev fs clust) n := by
  refine ⟨?_, ?_, ?_, ?_⟩
  · intro i hi
    rw [← chain_succ]
    exact h.long (i + 1) (by omega)
  · rw [← chain_succ]
    exact h.ends
  · intro i hi
    rw [← chain_succ]
    exact h.clusters (i + 1) (by omega)
  · intro i hi
    rw [← chain_succ]
    exact h.links (i + 1) (by omega)

theorem clusterLoop_spec {left n : Nat} {g : FatCache} {clust : Addr} (hg : g.valid = false)
    (h : RootFile dev fs clust n) (hleft : n < left) :
    ∃ g', clusterLoop dev fs fuel s buf name left g clust =
      loadFound dev fs fuel s buf g'
        ((List.range n).findSome? fun i => clusterFile dev fs name (chain dev fs clust i)) := by
  induction left generalizing n g clust with
  | zero => exact absurd hleft (Nat.not_lt_zero n)
  | succ left ih =>
    rw [clusterLoop]
    cases n with
    | zero =>
      have hend : endOfFile fs clust = true := h.ends
      rw [if_pos hend]
      exact ⟨g, rfl⟩
    | succ n =>
      have hlong : endOfFile fs clust = false := h.long 0 (Nat.succ_pos n)
      have hread : dev.Readable (cluster2fsector fs clust + fs.fsOffset) fs.clusterSize :=
        h.clusters 0 (Nat.succ_pos n)
      obtain ⟨g₁, hsectors, hg₁⟩ := @sectorLoop_spec dev fs getCluster name fs.clusterSize g _ hread
      have hfirst : clusterFile dev fs name (chain dev fs clust 0) =
          firstFile getCluster name (entries dev fs fs.clusterSize (cluster2fsector fs clust)) :=
        rfl
      rw [hlong, if_neg Bool.false_ne_true, hsectors, List.range_succ_eq_map,
        List.findSome?_cons, List.findSome?_map, hfirst]
      rcases @ofList_cases getCluster name
        (entries dev fs fs.clusterSize (cluster2fsector fs clust)) with
        ⟨file, hfile, hfound⟩ | ⟨hnone, hfound⟩
      · rw [hfile, hfound]
        exact ⟨g₁, rfl⟩
      · obtain ⟨g₂, hget, _, hg₂⟩ :=
          fatGetFatEntry_spec (Or.inl (hg₁.trans hg)) (h.links 0 (Nat.succ_pos n))
        obtain ⟨g₃, hnext⟩ := @ih n g₂ (fatEntry dev fs clust)
          (hg₂.trans (hg₁.trans hg)) h.next (by omega)
        refine ⟨g₃, ?_⟩
        change fatGetFatEntry dev fs g₁ clust = (g₂, fatEntry dev fs clust) at hget
        rw [hnone]
        rcases hfound with hmore | hlast
        · rw [hmore]
          dsimp only
          rw [hget]
          exact hnext
        · rw [hlast]
          dsimp only
          rw [hget]
          exact hnext

theorem copyNamedFileFat16_spec {g : FatCache}
    (hread : dev.Readable (fs.rootDirStart + fs.fsOffset) fs.rootSectors) :
    ∃ g', copyNamedFileFat16 dev fs fuel s buf name g =
      loadFound dev fs fuel s buf g'
        (firstFile clustLow name (entries dev fs fs.rootSectors fs.rootDirStart)) := by
  obtain ⟨g', hsectors, _⟩ := @sectorLoop_spec dev fs clustLow name fs.rootSectors g _ hread
  refine ⟨g', ?_⟩
  unfold copyNamedFileFat16
  dsimp only
  unfold FsInfo.rootSectors at hsectors ⊢
  rw [hsectors]
  rcases @ofList_cases clustLow name (entries dev fs _ fs.rootDirStart) with
    ⟨file, hfile, hfound⟩ | ⟨hnone, hmore | hlast⟩
  · rw [hfile, hfound]
    rfl
  · rw [hnone, hmore]
    rfl
  · rw [hnone, hlast]
    rfl

theorem fatCopyNamedFile_searched {n : Nat} {g : FatCache} (h : Searchable dev fs n)
    (hg : g.valid = false ∨ fs.fatType ≠ 32) (hfuel : n < fuel) :
    ∃ g' msg, fatCopyNamedFile dev fs fuel s buf name g =
      (loadFound dev fs fuel s buf g' (findFile dev fs name n)).map fun (g, s, ok) =>
        (g, if ok then s else s.putstr msg, ok) := by
  unfold Searchable at h
  unfold findFile
  by_cases htype : fs.fatType = 32
  · rw [if_pos htype] at h ⊢
    obtain ⟨g', hloop⟩ := @clusterLoop_spec dev fs fuel s buf name fuel n g fs.rootDirStart
      (hg.resolve_right (not_not_intro htype)) h hfuel
    refine ⟨g', "copy_named_file_fat32 failed!\n", ?_⟩
    simp only [fatCopyNamedFile, htype]
    rw [copyNamedFileFat32, hloop]
  · rw [if_neg htype] at h ⊢
    obtain ⟨g', hloop⟩ := @copyNamedFileFat16_spec dev fs fuel s buf name g h.2
    refine ⟨g', "copy_named_file_fat16 failed!\n", ?_⟩
    rcases h.1 with htype | htype
    · simp only [fatCopyNamedFile, htype]
      rw [hloop]
    · simp only [fatCopyNamedFile, htype]
      rw [hloop]

theorem loadFile_spec (g : FatCache) {clust size : Addr} (hsize : 0 < fs.clusterSize)
    (hint : size.toNat + fs.cbytes ≤ 2 ^ 31)
    (hlinks : LinksReadable dev fs clust (fs.clusters size.toNat))
    (hfuel : fs.clusters size.toNat < fuel) :
    ∃ g' mem' ok, loadFile dev fs fuel s buf g clust size =
        some (g', { s with mem := mem' }, ok) ∧
      (ok = true ↔ ClustersReadable dev fs clust (fs.clusters size.toNat)) ∧
      (ok = true →
        mem' = copied dev fs clust (fs.clusters size.toNat * fs.cbytes) s.mem buf) := by
  obtain ⟨g', mem', ok, hcopy, hok, hcopied⟩ := fatCopyFile_spec g s.mem buf hsize hint hlinks hfuel
  refine ⟨g', mem', ok, ?_, hok, hcopied⟩
  rw [loadFile, hcopy]
  rfl

theorem countLoop_eq {step x : Int} (hstep : 0 < step) {fuel : Nat}
    (hfuel : (x / step).toNat < fuel) (n : Nat) :
    countLoop step fuel x n = some (n + (x / step).toNat) := by
  induction fuel generalizing x n with
  | zero => exact absurd hfuel (Nat.not_lt_zero _)
  | succ fuel ih =>
    rw [countLoop]
    split
    · next hge =>
      have hdiv := Int.add_mul_ediv_right (x - step) 1 (Int.ne_of_gt hstep)
      rw [Int.one_mul, Int.sub_add_cancel] at hdiv
      have hpos : 0 ≤ (x - step) / step := Int.ediv_nonneg (by omega) (by omega)
      have hnat : (x / step).toNat = ((x - step) / step).toNat + 1 := by omega
      rw [ih (by omega), hnat]
      congr 1
      omega
    · next hlt =>
      have hneg : x / step < 1 := by
        apply Int.ediv_lt_of_lt_mul hstep
        omega
      have hzero : (x / step).toNat = 0 := by omega
      rw [hzero]
      rfl

section Layout
variable (bpb : Memory)

def rootDirSecs : Nat := (numRootEnts bpb * 32 + secSize bpb - 1) / secSize bpb

/-- Where the sectors begin that count_of_clusters counts. -/
def dataStart : Addr :=
  numRsvdSecs bpb + numFats bpb * fatSize bpb + BitVec.ofNat 32 (rootDirSecs bpb)

def countOfClusters : Nat :=
  ((totalSectors bpb - dataStart bpb).toInt / (secPerClus bpb : Int)).toNat

/-- The file system that a boot record describes. -/
def layout (fsOffset : Addr) : FsInfo where
  fsOffset := fsOffset
  fatType :=
    if countOfClusters bpb < 4085 then 12 else if countOfClusters bpb < 65525 then 16 else 32
  rootDirSectors := BitVec.ofNat 32 (rootDirSecs bpb)
  clusterSize := secPerClus bpb
  fat1Start := numRsvdSecs bpb
  rootDirStart :=
    if countOfClusters bpb < 65525 then numRsvdSecs bpb + fatSize bpb + fatSize bpb
    else rootClus bpb
  cluster2Start := numRsvdSecs bpb + fatSize bpb + fatSize bpb +
    BitVec.ofNat 32 ((numRootEnts bpb * 32 + (512 - 1)) / 512)
  reserved := reserved_lt bpb

variable {bpb}

theorem rootDirSecs_eq :
    (((numRootEnts bpb : Int) * 32 + secSize bpb - 1) / secSize bpb).toNat = rootDirSecs bpb := by
  unfold rootDirSecs
  rcases Nat.eq_zero_or_pos (secSize bpb) with hzero | hpos
  · rw [hzero, Int.natCast_zero, Int.ediv_zero, Nat.div_zero]
    rfl
  · have hcast : ((numRootEnts bpb : Int) * 32 + secSize bpb - 1) =
        ((numRootEnts bpb * 32 + secSize bpb - 1 : Nat) : Int) := by omega
    rw [hcast, ← Int.natCast_ediv, Int.toNat_natCast]

theorem fatDetectType_counts {fuel : Nat} (s : Loader) (fsOffset : Addr)
    (hsig : bpbSig bpb = 0xaa55)
    (hns : countLoop (secSize bpb) fuel (numRootEnts bpb * 32 + secSize bpb - 1) 0 =
      some (rootDirSecs bpb))
    (hnc : countLoop (secPerClus bpb) fuel (totalSectors bpb - dataStart bpb).toInt 0 =
      some (countOfClusters bpb)) :
    fatDetectType fuel s fsOffset bpb = some (s, some (layout bpb fsOffset)) := by
  unfold dataStart at hnc
  rw [fatDetectType, if_neg (not_not_intro hsig), hns, Option.bind_some]
  dsimp only
  rw [hnc, Option.map_some]
  unfold layout
  by_cases h12 : countOfClusters bpb < 4085
  · have h16 : countOfClusters bpb < 65525 := by omega
    simp only [if_pos h12, if_pos h16]
  · by_cases h16 : countOfClusters bpb < 65525
    · simp only [if_neg h12, if_pos h16]
    · simp only [if_neg h12, if_neg h16]

theorem fatDetectType_eq {fuel : Nat} (s : Loader) (fsOffset : Addr) (hsig : bpbSig bpb = 0xaa55)
    (hsec : 0 < secSize bpb) (hclus : 0 < secPerClus bpb) (hroot : rootDirSecs bpb < fuel)
    (hcount : countOfClusters bpb < fuel) :
    fatDetectType fuel s fsOffset bpb = some (s, some (layout bpb fsOffset)) := by
  apply fatDetectType_counts s fsOffset hsig
  · rw [countLoop_eq (by omega) (by rwa [rootDirSecs_eq]), rootDirSecs_eq, Nat.zero_add]
  · rw [countLoop_eq (by omega) hcount, Nat.zero_add]
    rfl

theorem countLoop_some {step x : Int} (hstep : 0 ≤ step) {fuel n k : Nat}
    (h : countLoop step fuel x n = some k) : k = n + (x / step).toNat := by
  rcases Int.lt_or_eq_of_le hstep with hpos | hzero
  · induction fuel generalizing x n with
    | zero => cases h
    | succ fuel ih =>
      by_cases hlt : (x / step).toNat < fuel + 1
      · rw [countLoop_eq hpos hlt] at h
        exact (Option.some.inj h).symm
      · have hge : x ≥ step := by
          by_contra hsmall
          have hone : x / step < 1 := by
            apply Int.ediv_lt_of_lt_mul hpos
            omega
          omega
        have hdiv := Int.add_mul_ediv_right (x - step) 1 (Int.ne_of_gt hpos)
        rw [Int.one_mul, Int.sub_add_cancel] at hdiv
        rw [countLoop, if_pos hge] at h
        have hk := ih h
        omega
  · subst hzero
    rw [Int.ediv_zero]
    have hstuck : ∀ (fuel : Nat) (m : Nat), 0 ≤ x → countLoop 0 fuel x m = none := by
      intro fuel
      induction fuel with
      | zero => exact fun _ _ => rfl
      | succ fuel ih =>
        intro m hx
        rw [countLoop, if_pos hx, Int.sub_zero, ih _ hx]
    cases fuel with
    | zero => cases h
    | succ fuel =>
      by_cases hx : 0 ≤ x
      · rw [hstuck _ _ hx] at h
        cases h
      · rw [countLoop, if_neg hx] at h
        exact (Option.some.inj h).symm

theorem fatDetectType_some {fuel : Nat} {s s' : Loader} {fsOffset : Addr} {fs : FsInfo}
    (h : fatDetectType fuel s fsOffset bpb = some (s', some fs)) :
    s' = s ∧ fs = layout bpb fsOffset := by
  have hrun := h
  unfold fatDetectType at h
  split at h
  · cases h
  · next hsig =>
    obtain ⟨ns, hns, h⟩ := Option.bind_eq_some_iff.mp h
    obtain ⟨nc, hnc, -⟩ := Option.map_eq_some_iff.mp h
    have hns' := countLoop_some (Int.natCast_nonneg _) hns
    have hnc' := countLoop_some (Int.natCast_nonneg _) hnc
    rw [rootDirSecs_eq, Nat.zero_add] at hns'
    rw [Nat.zero_add] at hnc'
    subst hns' hnc'
    rw [fatDetectType_counts s fsOffset (not_not.mp hsig) hns hnc] at hrun
    cases hrun
    exact ⟨rfl, rfl⟩

theorem dataStart_toNat (hfits : (numRsvdSecs bpb).toNat +
      (numFats bpb).toNat * (fatSize bpb).toNat + rootDirSecs bpb ≤ (totalSectors bpb).toNat) :
    (dataStart bpb).toNat = (numRsvdSecs bpb).toNat +
      (numFats bpb).toNat * (fatSize bpb).toNat + rootDirSecs bpb := by
  have hlt := (totalSectors bpb).isLt
  rw [dataStart, BitVec.toNat_add, BitVec.toNat_add, BitVec.toNat_mul, BitVec.toNat_ofNat]
  generalize (numFats bpb).toNat * (fatSize bpb).toNat = tables at *
  omega

/-- A cluster that is counted has all its sectors. -/
theorem countOfClusters_mul {i : Nat} (h : i < countOfClusters bpb)
    (hstart : (dataStart bpb).toNat ≤ (totalSectors bpb).toNat) :
    (dataStart bpb).toNat + (i + 1) * secPerClus bpb ≤ (totalSectors bpb).toNat := by
  have hsub : (totalSectors bpb - dataStart bpb).toNat =
      (totalSectors bpb).toNat - (dataStart bpb).toNat := by bv_omega
  unfold countOfClusters at h
  rw [BitVec.toInt_eq_toNat_cond, hsub] at h
  split at h
  · rw [← Int.natCast_ediv, Int.toNat_natCast] at h
    have hmul := Nat.mul_le_mul_right (secPerClus bpb) h
    have hdiv := Nat.div_mul_le_self ((totalSectors bpb).toNat - (dataStart bpb).toNat)
      (secPerClus bpb)
    rw [Nat.succ_eq_add_one] at hmul
    omega
  · have hneg : (((((totalSectors bpb).toNat - (dataStart bpb).toNat : Nat) : Int) -
        ((2 ^ 32 : Nat) : Int)) / (secPerClus bpb : Int)) ≤ 0 := by
      have hlt := (totalSectors bpb).isLt
      rcases Nat.eq_zero_or_pos (secPerClus bpb) with hzero | hpos
      · rw [hzero, Int.natCast_zero, Int.ediv_zero]
      · exact Int.ediv_nonpos_of_nonpos_of_neg (by omega) (by omega)
    omega

/-- The loader reckons with two tables: then, and only then, cluster 2 is the first of the
clusters that are counted, and all of them are within the partition. -/
theorem detected_clusters {fuel : Nat} {s s' : Loader} {fsOffset : Addr} {fs : FsInfo}
    (h : fatDetectType fuel s fsOffset bpb = some (s', some fs)) (hsec : secSize bpb = 512)
    (hfats : 0 < (numFats bpb).toNat) (hfat : 0 < (fatSize bpb).toNat)
    (hfits : (numRsvdSecs bpb).toNat + (numFats bpb).toNat * (fatSize bpb).toNat +
      rootDirSecs bpb ≤ (totalSectors bpb).toNat) :
    (fs.cluster2Start = dataStart bpb ↔ (numFats bpb).toNat = 2) ∧
      ((numFats bpb).toNat = 2 → ∀ c : Addr, 2 ≤ c.toNat → c.toNat < 2 + countOfClusters bpb →
        (dataStart bpb).toNat ≤ (cluster2fsector fs c).toNat ∧
          (cluster2fsector fs c).toNat + fs.clusterSize ≤ (totalSectors bpb).toNat) := by
  obtain ⟨-, rfl⟩ := fatDetectType_some h
  have hstart := dataStart_toNat hfits
  have htotal := (totalSectors bpb).isLt
  have hroot : (numRootEnts bpb * 32 + (512 - 1)) / 512 = rootDirSecs bpb := by
    rw [rootDirSecs, hsec]
    rfl
  have hcluster2 : (layout bpb fsOffset).cluster2Start =
      numRsvdSecs bpb + fatSize bpb + fatSize bpb + BitVec.ofNat 32 (rootDirSecs bpb) := by
    rw [← hroot]
    rfl
  have hiff : (layout bpb fsOffset).cluster2Start = dataStart bpb ↔ (numFats bpb).toNat = 2 := by
    rw [hcluster2, ← BitVec.toNat_inj, hstart]
    simp only [BitVec.toNat_add, BitVec.toNat_ofNat]
    have hz := (fatSize bpb).isLt
    obtain hone | htwo | ⟨m, hm⟩ : (numFats bpb).toNat = 1 ∨ (numFats bpb).toNat = 2 ∨
        ∃ m, (numFats bpb).toNat = m + 3 := by
      by_cases hmany : 3 ≤ (numFats bpb).toNat
      · exact Or.inr (Or.inr ⟨_, (Nat.sub_add_cancel hmany).symm⟩)
      · omega
    · rw [hone] at hfits ⊢
      omega
    · rw [htwo] at hfits ⊢
      omega
    · rw [hm, Nat.add_mul] at hfits ⊢
      generalize m * (fatSize bpb).toNat = more at *
      omega
  refine ⟨hiff, ?_⟩
  intro htwo c hc hcount
  have hinside := @countOfClusters_mul bpb (c.toNat - 2) (by omega) (by omega)
  have hblock : (cluster2fsector (layout bpb fsOffset) c).toNat =
      (dataStart bpb).toNat + (c.toNat - 2) * secPerClus bpb := by
    have hsub : (c - 2).toNat = c.toNat - 2 := by bv_omega
    rw [cluster2fsector, hiff.mpr htwo, BitVec.toNat_add, BitVec.toNat_mul, hsub,
      BitVec.toNat_ofNat]
    change (_ + (c.toNat - 2) * (secPerClus bpb % 2 ^ 32) % 2 ^ 32) % 2 ^ 32 = _
    have hspc : secPerClus bpb < 2 ^ 8 := (bpb 13).isLt
    rw [Nat.mod_eq_of_lt (by omega : secPerClus bpb < 2 ^ 32)]
    rw [Nat.succ_mul] at hinside
    generalize (c.toNat - 2) * secPerClus bpb = behind at *
    omega
  rw [hblock]
  change _ ∧ _ + secPerClus bpb ≤ _
  rw [Nat.succ_mul] at hinside
  omega

end Layout

/-! ## From the card to the image -/

theorem fatReadMbr_some {g g' : FatCache} {s s' : Loader}
    (h : fatReadMbr dev fuel g s = some (g', s', some fs)) : s' = s ∧ g'.valid = g.valid := by
  unfold fatReadMbr at h
  split at h
  · cases h
  · dsimp only at h
    split at h
    · cases h
    · split at h
      · cases h
      · split at h
        · cases h
        · obtain ⟨⟨s₁, found⟩, hdetect, h⟩ := Option.map_eq_some_iff.mp h
          cases found with
          | none => cases h
          | some fs₁ =>
            cases h
            exact ⟨(fatDetectType_some hdetect).1, rfl⟩

/-- A file that is on the card whole. -/
structure OnCard (dev : Device) (fs : FsInfo) (name : List Byte) (n : Nat) (clust size : Addr) :
    Prop where
  sized : 0 < fs.clusterSize
  searchable : Searchable dev fs n
  found : findFile dev fs name n = some (clust, size)
  small : size.toNat + fs.cbytes ≤ 2 ^ 31
  links : LinksReadable dev fs clust (fs.clusters size.toNat)
  clusters : ClustersReadable dev fs clust (fs.clusters size.toNat)

/-- The memory with the clusters of a file. -/
def withFile (dev : Device) (fs : FsInfo) (clust size : Addr) (mem : Memory) (buf : Addr) :
    Memory :=
  copied dev fs clust (fs.clusters size.toNat * fs.cbytes) mem buf

theorem sdmmcLoadFile_onCard {g g₁ : FatCache} {s s₁ : Loader} {buf clust size : Addr} {n : Nat}
    (hmbr : fatReadMbr dev fuel g (s.putstr "Load QNX image from SDMMC...\n") =
      some (g₁, s₁, some fs)) (hg : g.valid = false) (h : OnCard dev fs name n clust size)
    (hfuel : n < fuel) (hlong : fs.clusters size.toNat < fuel) :
    ∃ g' s', sdmmcLoadFile (some dev) fuel g s buf name = some (g', s', true) ∧
      s'.mem = withFile dev fs clust size s.mem buf := by
  obtain ⟨rfl, hg₁⟩ := fatReadMbr_some hmbr
  obtain ⟨g₂, msg, hsearch⟩ :=
    @fatCopyNamedFile_searched dev fs fuel (s.putstr "Load QNX image from SDMMC...\n") buf name n
      g₁ h.searchable (Or.inl (hg₁.trans hg)) hfuel
  obtain ⟨g₃, mem', ok, hload, hok, hcopied⟩ :=
    @loadFile_spec dev fs fuel (s.putstr "Load QNX image from SDMMC...\n") buf g₂ clust size
      h.sized h.small h.links hlong
  obtain rfl := hok.mpr h.clusters
  refine ⟨g₃, { s.putstr "Load QNX image from SDMMC...\n" with mem := mem' }, ?_, ?_⟩
  · rw [sdmmcLoadFile, hmbr, Option.bind_some]
    dsimp only
    rw [hsearch, h.found, loadFound, hload]
    rfl
  · change mem' = _
    rw [hcopied rfl, putstr_mem]
    rfl

/-- `QNX-IFS` -/
def bootFile : List Byte := [0x51, 0x4e, 0x58, 0x2d, 0x49, 0x46, 0x53]

def sampleMbr : Nat → Byte
  | 454 => 1
  | 459 => 0x20
  | 510 => 0x55
  | 511 => 0xaa
  | _ => 0

def sampleBpb : Nat → Byte
  | 12 | 16 => 2
  | 13 | 14 => 1
  | 17 => 16
  | 19 => 0x88
  | 20 => 0x13
  | 22 => 20
  | 510 => 0x55
  | 511 => 0xaa
  | _ => 0

def sampleDir (o : Nat) : Byte :=
  if o < 7 then bootFile.getD o 0
  else if o < 11 then 0x20
  else if o = 26 then 2
  else if o = 28 then 4
  else if o = 29 then 2
  else 0

/-- The boot records, the root directory, and cluster 2 with the sample image. -/
def bootCard : Device := sampleCard fun b o =>
  if b = 0 then sampleMbr o
  else if b = 1 then sampleBpb o
  else if b = 42 then sampleDir o
  else if b = 43 then sampleByte o
  else 0

theorem sampleBpb_layout : layout (fun o => sampleBpb o.toNat) 1 = sampleFs := by
  simp only [layout, sampleFs, FsInfo.mk.injEq]
  decide +kernel

theorem detected_clusters_sample :
    (sampleFs.cluster2Start = dataStart (fun o => sampleBpb o.toNat) ↔
      (numFats fun o => sampleBpb o.toNat).toNat = 2) ∧
    ((numFats fun o => sampleBpb o.toNat).toNat = 2 → ∀ c : Addr, 2 ≤ c.toNat →
      c.toNat < 2 + countOfClusters (fun o => sampleBpb o.toNat) →
      (dataStart fun o => sampleBpb o.toNat).toNat ≤ (cluster2fsector sampleFs c).toNat ∧
        (cluster2fsector sampleFs c).toNat + sampleFs.clusterSize ≤
          (totalSectors fun o => sampleBpb o.toNat).toNat) := by
  have hdetect : fatDetectType 5000 emptyLoader 1 (fun o => sampleBpb o.toNat) =
      some (emptyLoader, some sampleFs) := by
    rw [← sampleBpb_layout]
    exact fatDetectType_eq _ _ (by decide +kernel) (by decide +kernel) (by decide +kernel)
      (by decide +kernel) (by decide +kernel)
  exact detected_clusters hdetect (by decide +kernel) (by decide +kernel) (by decide +kernel)
    (by decide +kernel)

theorem bootCard_mbr (s : Loader) :
    ∃ g, fatReadMbr bootCard 5000 emptyCache s = some (g, s, some sampleFs) := by
  obtain ⟨blk, hblk, hmbr⟩ : ∃ blk, readSector bootCard emptyCache.blk 0 0 1 = (blk, true) ∧
      blk = fun a => if (a - 0).toNat < sectorSize * 1 then bootCard.blocks 0 (a - 0).toNat
        else 0 := ⟨_, if_pos fun _ _ => rfl, rfl⟩
  obtain ⟨blk', hblk', hbpb⟩ : ∃ blk', readSector bootCard blk (0 + 1) 512 1 = (blk', true) ∧
      blk' = fun a => if (a - 512).toNat < sectorSize * 1 then
        bootCard.blocks (0 + 1) (a - 512).toNat else blk a := ⟨_, if_pos fun _ _ => rfl, rfl⟩
  have hlayout : layout (header blk' 512) 1 = sampleFs := by
    subst hbpb hmbr
    simp only [layout, sampleFs, FsInfo.mk.injEq]
    decide +kernel
  have hdetect : fatDetectType 5000 s 1 (header blk' 512) = some (s, some sampleFs) := by
    rw [← hlayout]
    subst hbpb hmbr
    exact fatDetectType_eq _ _ (by decide +kernel) (by decide +kernel) (by decide +kernel)
      (by decide +kernel) (by decide +kernel)
  have hsign : ¬ blk.half 510 ≠ 0xaa55 := by
    rw [hmbr]
    decide +kernel
  have hsize : ¬ blk.word 458 = 0 := by
    rw [hmbr]
    decide +kernel
  have hoffset : blk.word 454 = 1 := by
    rw [hmbr]
    decide +kernel
  refine ⟨{ emptyCache with blk := blk' }, ?_⟩
  unfold fatReadMbr
  rw [hblk]
  dsimp only
  rw [if_neg hsign, if_neg hsize, hoffset, hblk']
  dsimp only
  rw [hdetect]
  rfl

theorem bootCard_onCard : OnCard bootCard sampleFs bootFile 0 2 516 := by
  refine ⟨Nat.one_pos, ?_, ?_, ?_, sample_links _ 2 _, sample_clusters _ 2 _⟩
  · refine ⟨Or.inr rfl, fun _ _ => rfl⟩
  · decide +kernel
  · decide +kernel

theorem bootCard_image :
    withFile bootCard sampleFs 2 516 emptyLoader.mem qnxLoadAddr = sampleImage := by
  funext a
  rw [withFile, copied, sampleImage, sampleAt]
  generalize (a - qnxLoadAddr).toNat = o
  have hsize : sampleFs.clusters (516 : Addr).toNat * sampleFs.cbytes = 1024 := by
    decide +kernel
  rw [hsize]
  split
  · next hlt =>
    have hlink : chain bootCard sampleFs 2 1 = 4 := by decide +kernel
    rcases Nat.lt_or_ge o 512 with hfirst | hsecond
    · have hdiv : o / sectorSize = 0 := Nat.div_eq_of_lt hfirst
      rw [contents_cluster Nat.one_pos hfirst, Device.blocks, hdiv]
      exact congrArg sampleByte (Nat.mod_eq_of_lt hfirst)
    · obtain ⟨o, rfl⟩ := Nat.exists_eq_add_of_le hsecond
      have hdiv : o / sectorSize = 0 := Nat.div_eq_of_lt (by unfold sectorSize; omega)
      rw [sampleByte_behind (by omega)]
      have hbehind := @contents_behind bootCard sampleFs 2 1 o Nat.one_pos
      have hcontents := @contents_cluster bootCard sampleFs 4 Nat.one_pos o
        (by change o < 512; omega)
      change contents bootCard sampleFs 2 (512 + o) = _ at hbehind
      rw [hbehind, hlink, hcontents, Device.blocks, hdiv]
      rfl
  · next hge =>
    rw [sampleByte_behind (by omega)]
    rfl

def cardLoad (fuel _ : Nat) (s : Loader) : Loader × Bool :=
  match sdmmcLoadFile (some bootCard) fuel emptyCache s qnxLoadAddr bootFile with
  | some (_, s, ok) => (s, ok)
  | none => (s, false)

theorem cardLoad_some {fuel : Nat} {s : Loader} (g' : FatCache) (s' : Loader) (ok : Bool)
    (h : sdmmcLoadFile (some bootCard) fuel emptyCache s qnxLoadAddr bootFile =
      some (g', s', ok)) : cardLoad fuel 0 s = (s', ok) := by
  rw [cardLoad, h]

end FridaCI.Ipl
