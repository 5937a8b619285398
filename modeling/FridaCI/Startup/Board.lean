import FridaCI.Startup.Alloc
import FridaCI.Startup.Sysram

/-!
# The memory of the board

startup/lib/ram.c once more, with the address space table: add_ram makes entries with the name
ram for the memory that it adds, reserve_ram entries with the name reserved, and after add_sysram
the table says what memory is free.
-/

namespace FridaCI.Startup
open Segments

set_option autoImplicit false

/-- The image without the startup program, from the startup header, and AS_ATTR_RAM. -/
structure BoardConfig where
  imageAddr : Nat
  imageSize : Nat
  attrRam : Nat
  imagePos : 0 < imageSize
  imageEnd : imageAddr + imageSize < paddrs

/-- The static variables of ram.c, and the system page. -/
structure Board where
  ram : RamState
  page : SysPage
  tempSyspage : Option Nat
  sysramAdded : Bool
  deriving DecidableEq

/-! ## alloc_ram -/

namespace Board
variable (cfg : BoardConfig)

/-- alloc_ram with an address. -/
def takeRam (b : Board) (addr size : Nat) : Result Board :=
  (Startup.takeRam b.ram addr size).bind fun ram =>
    if b.sysramAdded then
      let stop := ((addr + size) % paddrs + 2 ^ 64 - 1) % 2 ^ 64
      (sysramLoop cfg.attrRam addr stop (b.page.asinfo.length + 1) none b.page).bind fun page =>
        .ok { b with ram, page }
    else .ok { b with ram }

def allocRam (b : Board) (size align : Nat) : Result (Board × Option Nat) :=
  match findRam b.ram size align 0 0 with
  | none => .ok (b, none)
  | some addr => (b.takeRam cfg addr size).bind fun b => .ok (b, some addr)

def reserveRam (b : Board) (size align pagesize : Nat) : Result (Board × Option Nat) :=
  if size = 0 then .ok (b, none)
  else
    let align := if align ≠ 0 then align else pagesize
    match findTopRamAligned b.ram size align pagesize with
    | none => .crash
    | some addr => (b.takeRam cfg addr size).bind fun b =>
      let page := (asAddContaining b.page addr ((addr + size + paddrs - 1) % paddrs) cfg.attrRam
        false "reserved".toList ramName).1
      .ok ({ b with page }, some addr)

/-! ## add_ram and add_sysram -/

def tempSyspageSize : Nat := 32 * 1024

def pageSize : Nat := 0x1000

/-- The entries that the first call makes. -/
def firstEntries (page : SysPage) : SysPage :=
  if page.asinfo = [] then
    let (page, mem) := asDefault page
    (asAdd page 0 (paddrs - 1) 0 false false "below4G".toList (some mem)).1
  else page

def addRam (b : Board) (start size : Nat) : Result Board :=
  let page := (asAddContaining (firstEntries b.page) start
    ((start + size + paddrs - 1) % paddrs) cfg.attrRam false ramName "memory".toList).1
  (addMem b.ram.ram start size).bind fun ram =>
    (takeRam cfg { b with ram := { b.ram with ram }, page } cfg.imageAddr cfg.imageSize).bind
      fun b =>
        match b.tempSyspage with
        | some _ => .ok b
        | none =>
          match findRam b.ram tempSyspageSize pageSize 0 0 with
          | none => .ok b
          | some addr => .ok { b with
              ram := avoidRam b.ram addr tempSyspageSize
              tempSyspage := some addr }

def addSysram (b : Board) : Board :=
  { b with page := sysramEntries cfg.attrRam b.ram.ram b.page, sysramAdded := true }

end Board

/-! ## Runs -/

section Runs
variable (cfg : BoardConfig)

/-- A call that returns. Entries with the name sysram, or under such entries, are not added by
hand, and the other entries come behind those that the first add_ram makes. -/
inductive BoardCall : Board → Board → Prop where
  | addRam {b b' : Board} {start size : Nat} (hadded : b.sysramAdded = false) (hsize : 0 < size)
      (hend : start + size < paddrs) (h : b.addRam cfg start size = .ok b') : BoardCall b b'
  | takeRam {b b' : Board} {addr size : Nat} (hsize : 0 < size) (hend : addr + size < paddrs)
      (h : b.takeRam cfg addr size = .ok b') : BoardCall b b'
  | allocRam {b b' : Board} {size k : Nat} {addr : Option Nat} (hsize : 0 < size) (hk : k ≤ 32)
      (hfits : Fits b.ram (2 ^ k)) (h : b.allocRam cfg size (2 ^ k) = .ok (b', addr)) :
      BoardCall b b'
  | reserveRam {b b' : Board} {size align k : Nat} {addr : Option Nat}
      (hadded : b.sysramAdded = false) (hk : k ≤ 32) (hround : size + 2 ^ k ≤ paddrs)
      (h : b.reserveRam cfg size align (2 ^ k) = .ok (b', addr)) : BoardCall b b'
  | wsAlloc {b : Board} {size : Nat} : BoardCall b { b with ram := (wsAlloc b.ram size).1 }
  | avoidRam {b : Board} {start size : Nat} :
      BoardCall b { b with ram := avoidRam b.ram start size }
  | asAdd {b : Board} {start last attr : Nat} {name : List Char} {owner : Option Nat}
      (hmade : b.page.asinfo ≠ []) (hname : name ≠ [] ∧ IsString name) (hother : name ≠ sysram)
      (hle : start ≤ last) (hlast : last < paddrs) (howner : Owned b.page owner start last)
      (hleaf : NoLeaf b.page owner) :
      BoardCall b { b with page := (asAdd b.page start last attr false false name owner).1 }
  | asAddContaining {b : Board} {start last attr : Nat} {overlay : Bool}
      {name container : List Char} (hadded : b.sysramAdded = false) (hmade : b.page.asinfo ≠ [])
      (hname : name ≠ [] ∧ IsString name) (hother : name ≠ sysram) (hle : start ≤ last)
      (hlast : last + 1 < paddrs) :
      BoardCall b { b with
        page := (asAddContaining b.page start last attr overlay name container).1 }
  | addSysram {b : Board} (hadded : b.sysramAdded = false) : BoardCall b (b.addSysram cfg)

def emptyBoard (avoid : List AvoidEntry) : Board := ⟨⟨[], avoid⟩, emptyPage, none, false⟩

abbrev BoardCalls (avoid : List AvoidEntry) (b : Board) : Prop :=
  Relation.ReflTransGen (BoardCall cfg) (emptyBoard avoid) b

/-- The table before add_sysram: all free memory is in entries with the name ram. -/
structure Before (sp : SysPage) (free : Set Nat) : Prop where
  table : Table sp
  made : sp.asinfo = [] ∨ ∃ r ∈ sp.regions, r.name = "memory".toList ∧ r.start = 0 ∧
    r.last = paddrs - 1
  covers : Covers sp.regions ramName free
  unnamed : ∀ r ∈ sp.regions, r.name ≠ sysram

/-- The table after add_sysram: the entries with the name sysram are the free memory. -/
structure After (sp : SysPage) (free : Set Nat) : Prop where
  kept : Kept sp
  cells : sysramCells sp.regions = free

structure BoardOk (b : Board) : Prop where
  separated : Separated b.ram.ram
  bounded : ∀ x ∈ cells b.ram.ram, x + 1 < paddrs
  before : b.sysramAdded = false → Before b.page (cells b.ram.ram)
  after : b.sysramAdded = true → After b.page (cells b.ram.ram)

variable {cfg}

theorem Before.smaller {sp : SysPage} {free free' : Set Nat} (h : Before sp free)
    (hsub : free' ⊆ free) : Before sp free' :=
  ⟨h.table, h.made, fun x hx => h.covers x (hsub hx), h.unnamed⟩

theorem Before.extend {sp sp' : SysPage} {free : Set Nat} (h : Before sp free)
    (hmade : sp.asinfo ≠ []) (htable : Table sp') {new : List Region}
    (hregions : sp'.regions = sp.regions ++ new) (hnew : ∀ r ∈ new, r.name ≠ sysram) :
    Before sp' free := by
  refine ⟨htable, ?_, ?_, ?_⟩
  · obtain ⟨r, hr, hmemory⟩ := h.made.resolve_left hmade
    refine Or.inr ⟨r, ?_, hmemory⟩
    rw [hregions]
    exact List.mem_append_left _ hr
  · rw [hregions]
    exact h.covers.append h.table.forest new
  · rw [hregions]
    intro r hr
    rcases List.mem_append.mp hr with hr | hr
    · exact h.unnamed r hr
    · exact hnew r hr

theorem names_overlays {name : List Char} {new : List Region} (h : ∀ r ∈ new, r.name = name)
    (off : Nat) : ∀ r ∈ overlays off new, r.name = name := by
  induction new generalizing off with
  | nil => exact fun r hr => absurd hr List.not_mem_nil
  | cons t new ih =>
    intro r hr
    rcases List.mem_cons.mp hr with rfl | hr
    · exact h t (.head _)
    · exact ih (fun r hr => h r (.tail _ hr)) (off + 1) r hr

theorem Before.addContaining {sp : SysPage} {free : Set Nat} (h : Before sp free)
    (hmade : sp.asinfo ≠ []) {start last : Nat} (attr : Nat) (overlay : Bool) {name : List Char}
    (container : List Char) (hname : name ≠ [] ∧ IsString name) (hother : name ≠ sysram)
    (hle : start ≤ last) (hlast : last + 1 < paddrs) :
    Before (asAddContaining sp start last attr overlay name container).1 free := by
  obtain ⟨sp', new, hcall, htable, hregions, hcontained⟩ :=
    asAddContaining_spec h.table attr overlay container hname hle hlast
  rw [hcall]
  apply h.extend hmade htable hregions
  intro r hr
  have hnamed : r.name = name := by
    rcases List.mem_append.mp hr with hr | hr
    · exact hcontained.named r hr
    · cases overlay with
      | false => exact absurd hr List.not_mem_nil
      | true => exact names_overlays hcontained.named _ r hr
  rw [hnamed]
  exact hother

theorem Before.addSysram {sp : SysPage} {l : List Segment} (h : Before sp (cells l)) (attr : Nat)
    (hsep : Separated l) (hbounded : ∀ x ∈ cells l, x + 1 < paddrs) :
    After (sysramEntries attr l sp) (cells l) := by
  have hkept : Kept sp := by
    refine ⟨h.table, ?_, ?_⟩
    · intro r _ o c _ hc
      exact h.unnamed c (List.mem_of_getElem? hc)
    · intro r hr hname
      exact absurd hname (h.unnamed r hr)
  have hnone := sysramCells_others h.unnamed
  have hstop : ∀ s ∈ l, s.stop < paddrs := by
    intro s hs
    have hpos := hsep.positive s hs
    have hlast := hbounded (s.stop - 1) ⟨s, hs, by
      rw [Segment.cells, mem_range]
      unfold Segment.stop
      omega⟩
    unfold Segment.stop at hlast ⊢
    omega
  obtain ⟨hkept', hcells⟩ := sysramEntries_spec attr hsep hstop hkept
    (fun x _ hx => by rw [hnone] at hx; exact hx) h.covers
  rw [hnone, Set.empty_union] at hcells
  exact ⟨hkept', hcells⟩

theorem Board.takeRam_after {b : Board} (h : BoardOk b) {addr size : Nat} (hsize : 0 < size)
    (hend : addr + size < paddrs) (hadded : b.sysramAdded = true) :
    (∃ b', b.takeRam cfg addr size = .ok b' ∧ BoardOk b' ∧ b'.sysramAdded = true ∧
      Segments.cells b'.ram.ram = Segments.cells b.ram.ram \ range addr (addr + size) ∧
      Removed addr (addr + size - 1) b.page.regions b'.page.regions) ∨
    (b.takeRam cfg addr size = .crash ∧ (Startup.takeRam b.ram addr size = .crash ∨
      ∃ r ∈ b.page.regions, r.name = sysram ∧ addr ≤ r.start ∧ r.last < addr + size)) := by
  have hafter := h.after hadded
  unfold Board.takeRam
  rcases takeRam_spec h.separated hsize hend with ⟨ram', hok, hsep, hcells⟩ | ⟨hcrash, _⟩
  · have hstop : ((addr + size) % paddrs + 2 ^ 64 - 1) % 2 ^ 64 = addr + size - 1 := by
      rw [Nat.mod_eq_of_lt hend]
      unfold paddrs at hend
      omega
    rw [hok, hadded, hstop]
    dsimp only [Result.bind]
    rw [if_pos rfl]
    have hclean : ∀ (j : Nat) (t : Region), b.page.regions[j]? = some t →
        j < behind none ∨ b.page.asinfo.length ≤ j → ¬ Hits addr (addr + size - 1) t := by
      intro j t ht hj
      have hless := (List.getElem?_eq_some_iff.mp ht).1
      rw [length_regions] at hless
      change j < 0 ∨ _ at hj
      omega
    rcases @sysramLoop_spec cfg.attrRam addr (addr + size - 1) b.page.asinfo.length (by omega)
        (by omega) (b.page.asinfo.length + 1) none b.page hafter.kept hclean (Nat.zero_le _)
        (by change _ < _ + 0; omega) with
      ⟨hcrash, r, hr, hname, h₁, h₂⟩ | ⟨page, hpage, hkept, hremoved⟩
    · rw [hcrash]
      exact Or.inr ⟨rfl, Or.inr ⟨r, hr, hname, h₁, by omega⟩⟩
    · rw [hpage]
      refine Or.inl ⟨_, rfl, ⟨hsep, ?_, ?_, ?_⟩, rfl, hcells, hremoved⟩
      · intro x hx
        rw [hcells] at hx
        exact h.bounded x hx.1
      · intro hfalse
        cases hfalse
      · intro _
        refine ⟨hkept, ?_⟩
        have hlast : addr + size - 1 + 1 = addr + size := by omega
        dsimp only
        rw [hremoved.cells, hcells, hafter.cells, hlast]
  · rw [hcrash]
    exact Or.inr ⟨rfl, Or.inl rfl⟩

theorem Board.takeRam_before {b b' : Board} (h : BoardOk b) (hadded : b.sysramAdded = false)
    {addr size : Nat} (hsize : 0 < size) (hend : addr + size < paddrs)
    (hcall : b.takeRam cfg addr size = .ok b') :
    BoardOk b' ∧ b'.sysramAdded = false ∧ b'.page = b.page := by
  unfold Board.takeRam at hcall
  obtain ⟨ram', htake, hcall⟩ := Result.bind_eq_ok hcall
  rw [hadded, if_neg Bool.false_ne_true] at hcall
  cases hcall
  rcases takeRam_spec h.separated hsize hend with ⟨l, hok, hsep, hcells⟩ | ⟨hcrash, _⟩
  · rw [hok] at htake
    cases htake
    have hsub : Segments.cells l ⊆ Segments.cells b.ram.ram := by
      rw [hcells]
      exact Set.sdiff_subset
    refine ⟨⟨hsep, fun x hx => h.bounded x (hsub hx), ?_, ?_⟩, rfl, rfl⟩
    · intro _
      exact (h.before hadded).smaller hsub
    · intro htrue
      cases htrue
  · rw [hcrash] at htake
    cases htake

theorem Board.takeRam_ok {b b' : Board} (h : BoardOk b) {addr size : Nat} (hsize : 0 < size)
    (hend : addr + size < paddrs) (hcall : b.takeRam cfg addr size = .ok b') : BoardOk b' := by
  cases hadded : b.sysramAdded with
  | false => exact (takeRam_before h hadded hsize hend hcall).1
  | true =>
    rcases @takeRam_after cfg b h addr size hsize hend hadded with
      ⟨b'', hok, hboard, _⟩ | ⟨hcrash, _⟩
    · rw [hcall] at hok
      cases hok
      exact hboard
    · rw [hcall] at hcrash
      cases hcrash

/-- A board whose list of free memory alone is replaced by one that is as good. -/
theorem BoardOk.same_ram {b b' : Board} (h : BoardOk b) (hram : b'.ram.ram = b.ram.ram)
    (hpage : b'.page = b.page) (hadded : b'.sysramAdded = b.sysramAdded) : BoardOk b' := by
  constructor
  · rw [hram]
    exact h.separated
  · rw [hram]
    exact h.bounded
  · rw [hram, hpage, hadded]
    exact h.before
  · rw [hram, hpage, hadded]
    exact h.after

/-- The table that the first add_ram finds or makes. -/
theorem Before.make {sp : SysPage} {free : Set Nat} (h : Before sp free) :
    Before (Board.firstEntries sp) free ∧ (Board.firstEntries sp).asinfo ≠ [] := by
  unfold Board.firstEntries
  split
  · next hnil =>
    have hregions : sp.regions = [] := by
      rw [SysPage.regions, hnil]
      rfl
    have hmemory : "memory".toList ≠ [] ∧ IsString "memory".toList := by decide
    have hbelow : "below4G".toList ≠ [] ∧ IsString "below4G".toList := by decide
    have hnone : Owned sp none 0 (paddrs - 1) := fun o ho => by cases ho
    obtain ⟨sp₁, hadd₁, htable₁, hregions₁, _⟩ :=
      h.table.addEntry 0 false hmemory (Nat.zero_le (paddrs - 1)) hnone
    have howner : Owned sp₁ (some sp.asinfo.length) 0 (paddrs - 1) := by
      intro o ho
      cases ho
      refine ⟨⟨0, paddrs - 1, none, "memory".toList⟩, ?_, Nat.le_refl _, Nat.le_refl _⟩
      rw [hregions₁, hregions, hnil]
      rfl
    obtain ⟨sp₂, hadd₂, htable₂, hregions₂, _⟩ :=
      htable₁.addEntry 0 false hbelow (Nat.zero_le (paddrs - 1)) howner
    have hfirst : asDefault sp = (sp₁, sp.asinfo.length) := by
      rw [asDefault, asAdd, hadd₁]
      rfl
    have hsecond : (asAdd sp₁ 0 (paddrs - 1) 0 false false "below4G".toList
        (some sp.asinfo.length)).1 = sp₂ := by
      rw [asAdd, hadd₂]
      rfl
    rw [hfirst]
    dsimp only
    rw [hsecond]
    rw [hregions₁, hregions, List.nil_append] at hregions₂
    have hmade : sp₂.asinfo ≠ [] := by
      intro hnil
      rw [SysPage.regions, hnil] at hregions₂
      cases hregions₂
    refine ⟨⟨htable₂, ?_, ?_, ?_⟩, hmade⟩
    · rw [hregions₂]
      exact Or.inr ⟨_, .head _, rfl, rfl, rfl⟩
    · intro x hx
      obtain ⟨r, hr, _⟩ := h.covers x hx
      rw [hregions] at hr
      cases hr
    · rw [hregions₂]
      intro r hr hname
      rcases List.mem_cons.mp hr with rfl | hr
      · exact absurd hname (by decide)
      · rw [List.mem_singleton.mp hr] at hname
        change "below4G".toList = sysram at hname
        exact absurd hname (by decide)
  · next hmade =>
    exact ⟨h, hmade⟩

theorem Before.addRam {sp : SysPage} {free : Set Nat} (h : Before sp free)
    (hmade : sp.asinfo ≠ []) (attr : Nat) {start size : Nat} (hsize : 0 < size)
    (hend : start + size < paddrs) :
    Before (asAddContaining sp start ((start + size + paddrs - 1) % paddrs) attr false ramName
      "memory".toList).1 (free ∪ range start (start + size)) := by
  have hlast : (start + size + paddrs - 1) % paddrs = start + size - 1 := by
    unfold paddrs at hend ⊢
    omega
  have hname : ramName ≠ [] ∧ IsString ramName := by decide
  have hother : ramName ≠ sysram := by decide
  obtain ⟨sp', new, hcall, htable, hregions, hcontained⟩ :=
    @asAddContaining_spec sp h.table start (start + size - 1) attr false ramName
      "memory".toList hname (by omega) (by omega)
  rw [if_neg Bool.false_ne_true, List.append_nil] at hregions
  have hnamed : ∀ r ∈ new, r.name ≠ sysram := by
    intro r hr
    rw [hcontained.named r hr]
    exact hother
  have hextend := h.extend hmade htable hregions hnamed
  rw [hlast, hcall]
  refine ⟨htable, hextend.made, ?_, hextend.unnamed⟩
  intro x hx
  rcases hx with hx | hx
  · exact hextend.covers x hx
  · obtain ⟨m, hm, hmname, hm₁, hm₂⟩ := h.made.resolve_left hmade
    rw [mem_range] at hx
    have hin : x ∈ m.cells := by
      rw [Region.cells, mem_range, hm₁, hm₂]
      omega
    obtain ⟨r, hr, hxr⟩ := (hcontained.covers x).mpr
      ⟨hx.1, by omega, m, hm, .self hmname, hin⟩
    refine ⟨r, ?_, .self (hcontained.named r hr), hxr⟩
    rw [hregions]
    exact List.mem_append_right _ hr

theorem Board.addRam_ok {b b' : Board} (h : BoardOk b) (hadded : b.sysramAdded = false)
    {start size : Nat} (hsize : 0 < size) (hend : start + size < paddrs)
    (hcall : b.addRam cfg start size = .ok b') : BoardOk b' := by
  obtain ⟨hfirst, hmade⟩ := (h.before hadded).make
  have hpage := hfirst.addRam hmade cfg.attrRam hsize hend
  unfold Board.addRam at hcall
  dsimp only at hcall
  generalize (asAddContaining (Board.firstEntries b.page) start ((start + size + paddrs - 1) %
    paddrs) cfg.attrRam false ramName "memory".toList).1 = page at hcall hpage
  obtain ⟨l, hadd, hcall⟩ := Result.bind_eq_ok hcall
  rcases addMem_spec h.separated start size with ⟨l', hok, hsep, hcells⟩ | ⟨hcrash, _⟩
  · rw [hok] at hadd
    cases hadd
    obtain ⟨b₁, htake, hcall⟩ := Result.bind_eq_ok hcall
    have hgrown : BoardOk { b with ram := { b.ram with ram := l }, page } := by
      refine ⟨hsep, ?_, ?_, ?_⟩
      · intro x hx
        dsimp only at hx
        rw [hcells] at hx
        rcases hx with hx | hx
        · exact h.bounded x hx
        · rw [mem_range] at hx
          omega
      · intro _
        dsimp only
        rw [hcells]
        exact hpage
      · intro htrue
        cases hadded.symm.trans htrue
    have hboard := takeRam_ok hgrown cfg.imagePos cfg.imageEnd htake
    split at hcall
    · cases hcall
      exact hboard
    · split at hcall
      · cases hcall
        exact hboard
      · cases hcall
        exact hboard.same_ram rfl rfl rfl
  · rw [hcrash] at hadd
    cases hadd

theorem Board.reserveRam_ok {b b' : Board} (h : BoardOk b) (hadded : b.sysramAdded = false)
    {size align k : Nat} (hk : k ≤ 32) (hround : size + 2 ^ k ≤ paddrs) {found : Option Nat}
    (hcall : b.reserveRam cfg size align (2 ^ k) = .ok (b', found)) : BoardOk b' := by
  unfold Board.reserveRam at hcall
  split at hcall
  · cases hcall
    exact h
  · next hsize =>
    dsimp only at hcall
    split at hcall
    · cases hcall
    · next addr hfind =>
      obtain ⟨b₁, htake, hcall⟩ := Result.bind_eq_ok hcall
      cases hcall
      have hpos : 0 < size := Nat.pos_of_ne_zero hsize
      have hplaced := (findTopRamAligned_spec h.separated hfind).shorter (round_spec hk hround).2
      have hlast : addr + size - 1 ∈ Segments.cells b.ram.ram := by
        apply (hplaced.free _).1
        rw [mem_range]
        omega
      have hend : addr + size < paddrs := by
        have hbound := h.bounded _ hlast
        omega
      have hstop : (addr + size + paddrs - 1) % paddrs = addr + size - 1 := by
        unfold paddrs at hend ⊢
        omega
      obtain ⟨hboard, hadded₁, hpage⟩ := takeRam_before h hadded hpos hend htake
      have hmade : b₁.page.asinfo ≠ [] := by
        intro hnil
        obtain ⟨r, hr, _⟩ := (h.before hadded).covers _ hlast
        rw [← hpage, SysPage.regions, hnil] at hr
        cases hr
      have hreserved : "reserved".toList ≠ [] ∧ IsString "reserved".toList := by decide
      have hother : "reserved".toList ≠ sysram := by decide
      refine ⟨hboard.separated, hboard.bounded, ?_, ?_⟩
      · intro _
        dsimp only
        rw [hstop]
        exact (hboard.before hadded₁).addContaining hmade _ false ramName hreserved hother
          (by omega) (by omega)
      · intro htrue
        cases hadded₁.symm.trans htrue

theorem BoardOk.asAdd {b : Board} (h : BoardOk b) {start last : Nat} (attr : Nat)
    {name : List Char} {owner : Option Nat} (hmade : b.page.asinfo ≠ [])
    (hname : name ≠ [] ∧ IsString name) (hother : name ≠ sysram) (hle : start ≤ last)
    (hlast : last < paddrs) (howner : Owned b.page owner start last)
    (hleaf : NoLeaf b.page owner) :
    BoardOk { b with
      page := (Startup.asAdd b.page start last attr false false name owner).1 } := by
  have hnew : ∀ r ∈ [(⟨start, last, owner, name⟩ : Region)], r.name ≠ sysram := by
    intro r hr
    rw [List.mem_singleton.mp hr]
    exact hother
  refine ⟨h.separated, h.bounded, ?_, ?_⟩
  · intro hadded
    have hbefore := h.before hadded
    obtain ⟨sp', hadd, htable, hregions, _⟩ :=
      hbefore.table.addEntry attr false hname hle howner
    have hstep : (Startup.asAdd b.page start last attr false false name owner).1 = sp' := by
      rw [Startup.asAdd, hadd]
      rfl
    dsimp only
    rw [hstep]
    exact hbefore.extend hmade htable hregions hnew
  · intro hadded
    have hafter := h.after hadded
    obtain ⟨sp', hadd, hkept, hregions⟩ :=
      hafter.kept.addEntry attr false hname hle hlast howner hleaf
    have hstep : (Startup.asAdd b.page start last attr false false name owner).1 = sp' := by
      rw [Startup.asAdd, hadd]
      rfl
    dsimp only
    rw [hstep]
    refine ⟨hkept, ?_⟩
    rw [hregions, sysramCells_append, sysramCells_others hnew, Set.union_empty, hafter.cells]

theorem BoardOk.call {b b' : Board} (h : BoardOk b) (hcall : BoardCall cfg b b') :
    BoardOk b' := by
  cases hcall with
  | addRam hadded hsize hend hcall => exact Board.addRam_ok h hadded hsize hend hcall
  | takeRam hsize hend hcall => exact Board.takeRam_ok h hsize hend hcall
  | allocRam hsize hk hfits hcall =>
    unfold Board.allocRam at hcall
    split at hcall
    · cases hcall
      exact h
    · next addr hfind =>
      obtain ⟨_, _, hend⟩ := findRam_spec h.separated hk hfits hfind
      obtain ⟨b₁, htake, hcall⟩ := Result.bind_eq_ok hcall
      cases hcall
      exact Board.takeRam_ok h hsize hend htake
  | reserveRam hadded hk hround hcall => exact Board.reserveRam_ok h hadded hk hround hcall
  | @wsAlloc size =>
    have hram : (wsAlloc b.ram size).1.ram = b.ram.ram := by
      unfold wsAlloc
      split <;> rfl
    exact h.same_ram hram rfl rfl
  | avoidRam => exact h.same_ram rfl rfl rfl
  | asAdd hmade hname hother hle hlast howner hleaf =>
    exact h.asAdd _ hmade hname hother hle hlast howner hleaf
  | asAddContaining hadded hmade hname hother hle hlast =>
    refine ⟨h.separated, h.bounded, ?_, ?_⟩
    · intro _
      exact (h.before hadded).addContaining hmade _ _ _ hname hother hle hlast
    · intro htrue
      cases hadded.symm.trans htrue
  | addSysram hadded =>
    refine ⟨h.separated, h.bounded, ?_, ?_⟩
    · intro hfalse
      cases hfalse
    · intro _
      exact (h.before hadded).addSysram cfg.attrRam h.separated h.bounded

theorem boardOk_emptyBoard (avoid : List AvoidEntry) : BoardOk (emptyBoard avoid) := by
  refine ⟨separated_nil, ?_, ?_, ?_⟩
  · intro x hx
    simp [emptyBoard] at hx
  · intro _
    refine ⟨table_emptyPage, Or.inl rfl, ?_, ?_⟩
    · intro x hx
      simp [emptyBoard] at hx
    · intro r hr
      cases hr
  · intro htrue
    cases htrue

theorem boardCalls_ok {avoid : List AvoidEntry} {b : Board} (h : BoardCalls cfg avoid b) :
    BoardOk b := by
  induction h with
  | refl => exact boardOk_emptyBoard avoid
  | tail _ hcall ih => exact ih.call hcall

/-! ## The board with 1 GB -/

def boardConfig : BoardConfig := ⟨0x10820000, 0x400000, 7, by decide, by decide⟩

/-- The free memory around the image, after add_ram and add_sysram. -/
def freeBoard : Board where
  ram := ⟨[⟨0x10000000, 0x820000⟩, ⟨0x10c20000, 0x3f3e0000⟩], [⟨0x10000000, 0x10008000⟩]⟩
  page := sysramEntries 7 [⟨0x10000000, 0x820000⟩, ⟨0x10c20000, 0x3f3e0000⟩]
    (asAddContaining (Board.firstEntries emptyPage) 0x10000000 0x4fffffff 7 false ramName
      "memory".toList).1
  tempSyspage := some 0x10000000
  sysramAdded := true

theorem boardCalls_freeBoard : BoardCalls boardConfig [] freeBoard := by
  have hadd : (emptyBoard []).addRam boardConfig 0x10000000 0x40000000 =
      .ok { freeBoard with
        page := (asAddContaining (Board.firstEntries emptyPage) 0x10000000 0x4fffffff 7 false
          ramName "memory".toList).1
        sysramAdded := false } := by decide
  refine (Relation.ReflTransGen.single (BoardCall.addRam rfl ?_ ?_ hadd)).tail ?_
  · decide
  · decide
  · exact .addSysram rfl

/-! ## What is free -/

end Runs

end FridaCI.Startup
