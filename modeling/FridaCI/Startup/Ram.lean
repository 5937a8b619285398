import FridaCI.Segments
import Mathlib.Algebra.Group.Nat.Defs
import Mathlib.Data.Nat.Init

/-!
# The memory of the startup program

startup/lib/ram.c. The firmware that run.sh boots begins with a startup program, which
keeps a list of the free memory in ascending order and a list of ranges to keep off. A
`paddr_t` has 32 bits; the entries hold addresses of 64 bits. The address space entries
that as_add_containing makes, the watchers and the bookkeeping after add_sysram are left
out.
-/

namespace FridaCI.Startup
open Segments

set_option autoImplicit false

/-- What a call of the startup library comes to: `crash` stops the machine, `hang` is a loop
that has used up its fuel. -/
inductive Result (α : Type) where
  | ok (value : α)
  | crash
  | hang
  deriving DecidableEq, Repr

def Result.bind {α β : Type} (x : Result α) (f : α → Result β) : Result β :=
  match x with
  | .ok a => f a
  | .crash => .crash
  | .hang => .hang

theorem Result.bind_eq_ok {α β : Type} {x : Result α} {f : α → Result β} {b : β}
    (h : x.bind f = .ok b) : ∃ a, x = .ok a ∧ f a = .ok b := by
  cases x with
  | ok a => exact ⟨a, rfl, h⟩
  | crash => cases h
  | hang => cases h

/-- The number of values of a `paddr_t`. -/
def paddrs : Nat := 0x100000000

def trunc (x a : Nat) : Nat := x % paddrs &&& (paddrs - a)

def round (x a : Nat) : Nat := trunc (x + (a + paddrs - 1) % paddrs) a

/-- A range to keep off; an entry with `stop = 0` ends the list. -/
structure AvoidEntry where
  start : Nat
  stop : Nat
  deriving DecidableEq, Repr

structure RamState where
  ram : List Segment
  avoid : List AvoidEntry
  deriving DecidableEq, Repr

/-! ## add_mem -/

def ramEntrySize : Nat := 16

def maxRamListSize : Nat := 3 * 1024

/-- `ram_list_size`, with the entry of size zero behind the last one. -/
def ramListSize (ram : List Segment) : Nat := (ram.length + 1) * ramEntrySize

def addMem (ram : List Segment) (start size : Nat) : Result (List Segment) :=
  if 0 < size then
    if ramListSize ram > maxRamListSize - ramEntrySize then .crash
    else .ok (addSegment ⟨start, size⟩ ram)
  else .ok ram

/-! ## find_ram -/

/-- The part of the memory from `w.1` up to `w.2` that stays clear of the entry; the larger one
if the entry lies in the middle. -/
def fixSize (w : Nat × Nat) (a : AvoidEntry) : Option (Nat × Nat) :=
  let (s, e) := w
  if s ≥ a.stop ∨ e ≤ a.start then some (s, e)
  else if s ≥ a.start then
    if e ≤ a.stop then none else some (a.stop, e)
  else if e < a.stop then some (s, a.start)
  else if a.start - s > e - a.stop then some (s, a.start)
  else some (a.stop, e)

def clip : List AvoidEntry → Nat × Nat → Option (Nat × Nat)
  | [], w => some w
  | a :: rest, w => if a.stop = 0 then some w else (fixSize w a).bind (clip rest)

/-- Move an address of the wrong colour on to the next one of the right colour. -/
def recolour (addr colour mask : Nat) : Nat :=
  let incr := (((mask + paddrs - 1) % paddrs ||| mask) + 1) % paddrs
  ((addr + incr) % paddrs &&& (paddrs - 1 - mask)) ||| colour

/-- `none` stands for NULL_PADDR. -/
def findRamInRange (avoid : List AvoidEntry) (rangeStart rangeEnd size align colour mask : Nat) :
    List Segment → Option Nat
  | [] => none
  | r :: rest =>
    match clip avoid (r.addr, r.stop) with
    | none => findRamInRange avoid rangeStart rangeEnd size align colour mask rest
    | some (s, e) =>
      let addr := round s align
      let addr := if addr &&& mask ≠ colour then recolour addr colour mask else addr
      let addr := if rangeStart ≠ 0 ∧ addr < rangeStart then rangeStart else addr
      let e := if rangeEnd ≠ 0 ∧ e > rangeEnd then rangeEnd else e
      if addr ≥ e then findRamInRange avoid rangeStart rangeEnd size align colour mask rest
      else if size ≤ e - addr then some addr
      else findRamInRange avoid rangeStart rangeEnd size align colour mask rest

def findRam (st : RamState) (size align colour mask : Nat) : Option Nat :=
  findRamInRange st.avoid 0 (paddrs - 1) size align colour mask st.ram

/-- The highest block of `size` bytes at the end of an entry; zero stands for none. -/
def findTop (avoid : List AvoidEntry) (size align : Nat) : List Segment → Nat → Nat
  | [], top => top
  | r :: rest, top =>
    match clip avoid (r.addr, r.stop) with
    | none => findTop avoid size align rest top
    | some (s, e) =>
      if e - s ≥ size then
        let chk := if align ≠ 0 then trunc (e - size) align else (e - size) % paddrs
        if chk ≥ s ∧ chk > top then findTop avoid size align rest chk
        else findTop avoid size align rest top
      else findTop avoid size align rest top

def findTopRamAligned (st : RamState) (size align pagesize : Nat) : Option Nat :=
  match findTop st.avoid (round size pagesize) align st.ram 0 with
  | 0 => none
  | top + 1 => some (top + 1)

/-! ## alloc_ram -/

/-- The loop of alloc_ram, which takes the addresses from `addr` up to `stop` out of the entry
at index `i` and of those behind it. -/
def allocLoop (addr stop : Nat) : Nat → List Segment → Nat → Result (List Segment)
  | 0, _, _ => .hang
  | fuel + 1, ram, i =>
    match ram[i]? with
    | none => .ok ram
    | some r =>
      if (addr ≤ r.addr ∧ stop > r.addr) ∨ (addr ≥ r.addr ∧ addr < r.stop) ∨
          (stop ≥ r.addr ∧ stop < r.stop) then
        let e := if stop > r.stop then stop else r.stop
        let s := if addr < r.addr then addr else r.addr
        if addr = s ∧ stop = e then allocLoop addr stop fuel (ram.eraseIdx i) i
        else if addr = s then allocLoop addr stop fuel (ram.set i ⟨stop, e - stop⟩) (i + 1)
        else
          let ram := ram.set i ⟨r.addr, addr - s⟩
          if e ≠ stop then
            (addMem ram stop (e - stop)).bind fun ram => allocLoop addr stop fuel ram (i + 1)
          else allocLoop addr stop fuel ram (i + 1)
      else allocLoop addr stop fuel ram (i + 1)

/-- alloc_ram with an address. -/
def takeRam (st : RamState) (addr size : Nat) : Result RamState :=
  (allocLoop addr ((addr + size) % paddrs) (st.ram.length + 3) st.ram 0).bind fun ram =>
    .ok { st with ram }

/-- alloc_ram with NULL_PADDR; the address is NULL_PADDR again if nothing was found. -/
def allocRam (st : RamState) (size align : Nat) : Result (RamState × Option Nat) :=
  match findRam st size align 0 0 with
  | none => .ok (st, none)
  | some addr => (takeRam st addr size).bind fun st => .ok (st, some addr)

def avoidRam (st : RamState) (start size : Nat) : RamState :=
  { st with avoid := st.avoid ++ [⟨start, (start + size) % paddrs⟩] }

/-- ws_alloc once memory has been added: the block stays in the list and is kept off. -/
def wsAlloc (st : RamState) (size : Nat) : RamState × Option Nat :=
  match findRam st (round size 8) 8 0 0 with
  | none => (st, none)
  | some addr => (avoidRam st addr (round size 8), some addr)

def reserveRam (st : RamState) (size align pagesize : Nat) : Result (RamState × Option Nat) :=
  if size = 0 then .ok (st, none)
  else
    let align := if align ≠ 0 then align else pagesize
    match findTopRamAligned st size align pagesize with
    | none => .crash
    | some addr => (takeRam st addr size).bind fun st => .ok (st, some addr)

/-! ## Rounding -/

theorem and_high_bits {x k : Nat} (hk : k ≤ 32) (hx : x < paddrs) :
    x &&& (paddrs - 2 ^ k) = 2 ^ k * (x / 2 ^ k) := by
  have hpow : 2 ^ k ≤ paddrs := Nat.pow_le_pow_right (n := 2) (i := k) (j := 32) (by decide) hk
  have hpos : 0 < 2 ^ k := Nat.two_pow_pos k
  have hmask : paddrs - 2 ^ k = 2 ^ 32 - ((2 ^ k - 1) + 1) := by
    rw [Nat.sub_add_cancel hpos]
    rfl
  apply Nat.eq_of_testBit_eq
  intro i
  have hlow : 2 ^ k - 1 < 2 ^ 32 := by
    unfold paddrs at hpow
    omega
  rw [hmask, Nat.testBit_and, Nat.testBit_two_pow_sub_succ hlow, Nat.testBit_two_pow_sub_one,
    Nat.testBit_two_pow_mul]
  by_cases hi : i < k
  · simp [hi]
  · by_cases h32 : i < 32
    · have hdiv : (x / 2 ^ k).testBit (i - k) = x.testBit i := by
        rw [Nat.testBit_div_two_pow, Nat.sub_add_cancel (by omega)]
      simp [hi, h32, hdiv, Nat.not_lt.mp hi]
    · have hhigh : x.testBit i = false := by
        apply Nat.testBit_lt_two_pow
        exact Nat.lt_of_lt_of_le hx
          (Nat.pow_le_pow_right (n := 2) (i := 32) (by decide) (Nat.not_lt.mp h32))
      have hdiv : (x / 2 ^ k).testBit (i - k) = x.testBit i := by
        rw [Nat.testBit_div_two_pow, Nat.sub_add_cancel (by omega)]
      simp [hhigh, hdiv]

theorem trunc_eq {x k : Nat} (hk : k ≤ 32) (hx : x < paddrs) :
    trunc x (2 ^ k) = 2 ^ k * (x / 2 ^ k) := by
  rw [trunc, Nat.mod_eq_of_lt hx, and_high_bits hk hx]

theorem trunc_le (x a : Nat) : trunc x a ≤ x :=
  Nat.le_trans Nat.and_le_left (Nat.mod_le x paddrs)

theorem round_eq {x k : Nat} (hk : k ≤ 32) (hx : x + 2 ^ k ≤ paddrs) :
    round x (2 ^ k) = 2 ^ k * ((x + (2 ^ k - 1)) / 2 ^ k) := by
  have hpos : 0 < 2 ^ k := Nat.two_pow_pos k
  have hadd : (2 ^ k + paddrs - 1) % paddrs = 2 ^ k - 1 := by
    rw [Nat.add_comm, Nat.add_sub_assoc hpos, Nat.add_mod_left]
    apply Nat.mod_eq_of_lt
    omega
  rw [round, hadd, trunc_eq hk (by omega)]

theorem round_spec {x k : Nat} (hk : k ≤ 32) (hx : x + 2 ^ k ≤ paddrs) :
    2 ^ k ∣ round x (2 ^ k) ∧ x ≤ round x (2 ^ k) := by
  rw [round_eq hk hx]
  refine ⟨Nat.dvd_mul_right _ _, ?_⟩
  have hdiv := Nat.div_add_mod (x + (2 ^ k - 1)) (2 ^ k)
  have hmod := Nat.mod_lt (x + (2 ^ k - 1)) (Nat.two_pow_pos k)
  omega

/-- No multiple lies between. -/
theorem round_le {x y k : Nat} (hk : k ≤ 32) (hx : x + 2 ^ k ≤ paddrs) (hdvd : 2 ^ k ∣ y)
    (hle : x ≤ y) : round x (2 ^ k) ≤ y := by
  obtain ⟨m, rfl⟩ := hdvd
  rw [round_eq hk hx]
  apply Nat.mul_le_mul_left
  rw [← Nat.lt_succ_iff, Nat.div_lt_iff_lt_mul (Nat.two_pow_pos k), Nat.succ_mul, Nat.mul_comm]
  have hpos := Nat.two_pow_pos k
  omega

/-! ## Where a block is found -/

/-- The addresses that the entries in front of the end of the list keep off. -/
def avoided (avoid : List AvoidEntry) : Set Nat :=
  {x | ∃ a ∈ avoid.takeWhile fun a => a.stop ≠ 0, x ∈ range a.start a.stop}

theorem fixSize_spec {w w' : Nat × Nat} {a : AvoidEntry} (h : fixSize w a = some w')
    (hw : w.1 < w.2) :
    w.1 ≤ w'.1 ∧ w'.2 ≤ w.2 ∧ w'.1 < w'.2 ∧
      ∀ x ∈ range w'.1 w'.2, x ∉ range a.start a.stop := by
  obtain ⟨s, e⟩ := w
  simp only [fixSize] at h hw ⊢
  have hclear : ∀ s' e', (e' ≤ a.start ∨ a.stop ≤ s') →
      ∀ x ∈ range s' e', x ∉ range a.start a.stop := by
    intro s' e' hout x hx hmem
    simp only [mem_range] at hx hmem
    omega
  split at h
  · next hout =>
    cases h
    exact ⟨Nat.le_refl _, Nat.le_refl _, hw, hclear _ _ (by omega)⟩
  · split at h
    · split at h
      · cases h
      · cases h
        exact ⟨by omega, by omega, by omega, hclear _ _ (by omega)⟩
    · split at h
      · cases h
        exact ⟨by omega, by omega, by omega, hclear _ _ (by omega)⟩
      · split at h
        · cases h
          exact ⟨by omega, by omega, by omega, hclear _ _ (by omega)⟩
        · cases h
          exact ⟨by omega, by omega, by omega, hclear _ _ (by omega)⟩

/-- The window only shrinks, so it stays clear of the entries that it has been clipped by. -/
theorem clip_spec {avoid : List AvoidEntry} {w w' : Nat × Nat} (h : clip avoid w = some w')
    (hw : w.1 < w.2) :
    w.1 ≤ w'.1 ∧ w'.2 ≤ w.2 ∧ w'.1 < w'.2 ∧ ∀ x ∈ range w'.1 w'.2, x ∉ avoided avoid := by
  induction avoid generalizing w with
  | nil =>
    cases h
    refine ⟨Nat.le_refl _, Nat.le_refl _, hw, ?_⟩
    rintro x _ ⟨a, ha, _⟩
    cases ha
  | cons a rest ih =>
    rw [clip] at h
    split at h
    · next hstop =>
      cases h
      refine ⟨Nat.le_refl _, Nat.le_refl _, hw, ?_⟩
      rintro x _ ⟨b, hb, _⟩
      rw [List.takeWhile_cons_of_neg (by simp [hstop])] at hb
      cases hb
    · next hstop =>
      obtain ⟨w₁, hfix, hclip⟩ := Option.bind_eq_some_iff.mp h
      obtain ⟨hs, he, hlt, hclear⟩ := fixSize_spec hfix hw
      obtain ⟨hs', he', hlt', hclear'⟩ := ih hclip hlt
      refine ⟨Nat.le_trans hs hs', Nat.le_trans he' he, hlt', ?_⟩
      rintro x hx ⟨b, hb, hxb⟩
      rw [List.takeWhile_cons_of_pos (by simp [hstop])] at hb
      rcases List.mem_cons.mp hb with rfl | hb
      · refine hclear x ?_ hxb
        simp only [mem_range] at hx ⊢
        omega
      · exact hclear' x hx ⟨b, hb, hxb⟩

/-- Clear of all entries the window stays as it is. -/
theorem clip_clear {avoid : List AvoidEntry} (listed : ∀ a ∈ avoid, a.start < a.stop)
    {w : Nat × Nat} (hw : w.1 < w.2) (hclear : ∀ x ∈ range w.1 w.2, x ∉ avoided avoid) :
    clip avoid w = some w := by
  induction avoid with
  | nil => rfl
  | cons a rest ih =>
    have ha := listed a (.head _)
    have hstop : a.stop ≠ 0 := Nat.ne_of_gt (Nat.zero_lt_of_lt ha)
    have hmem : ∀ x, x ∈ range a.start a.stop ∨ x ∈ avoided rest → x ∈ avoided (a :: rest) := by
      intro x hx
      rw [avoided, List.takeWhile_cons_of_pos (by simp [hstop])]
      rcases hx with hx | ⟨b, hb, hx⟩
      · exact ⟨a, .head _, hx⟩
      · exact ⟨b, .tail _ hb, hx⟩
    have hout : w.1 ≥ a.stop ∨ w.2 ≤ a.start := by
      by_contra hover
      apply hclear (max w.1 a.start)
      · rw [mem_range]
        omega
      · apply hmem _ (Or.inl _)
        rw [mem_range]
        omega
    rw [clip, if_neg hstop, fixSize, if_pos hout]
    exact ih (fun b hb => listed b (.tail _ hb)) fun x hx h => hclear x hx (hmem x (Or.inr h))

/-- A block of `size` bytes in one piece of free memory, clear of what is kept off. -/
structure Placed (st : RamState) (size addr : Nat) : Prop where
  inside : ∃ r ∈ st.ram, r.addr ≤ addr ∧ addr + size ≤ r.stop
  clear : ∀ x ∈ range addr (addr + size), x ∉ avoided st.avoid

theorem Placed.free {st : RamState} {size addr : Nat} (h : Placed st size addr) :
    range addr (addr + size) ⊆ cells st.ram \ avoided st.avoid := by
  obtain ⟨r, hr, hle, hstop⟩ := h.inside
  intro x hx
  refine ⟨⟨r, hr, ?_⟩, h.clear x hx⟩
  simp only [Segment.cells, mem_range] at hx ⊢
  omega

theorem Placed.shorter {st : RamState} {size size' addr : Nat} (h : Placed st size addr)
    (hle : size' ≤ size) : Placed st size' addr := by
  obtain ⟨r, hr, haddr, hstop⟩ := h.inside
  refine ⟨⟨r, hr, haddr, by omega⟩, ?_⟩
  intro x hx
  apply h.clear x
  simp only [mem_range] at hx ⊢
  omega

theorem placed_of_window {st : RamState} {r : Segment} (hr : r ∈ st.ram) (hpos : 0 < r.size)
    {s e addr size : Nat} (hclip : clip st.avoid (r.addr, r.stop) = some (s, e))
    (hs : s ≤ addr) (he : addr + size ≤ e) : Placed st size addr := by
  have hlt : r.addr < r.stop := by
    unfold Segment.stop
    omega
  obtain ⟨hs', he', _, hclear⟩ := clip_spec hclip hlt
  dsimp only at hs' he' hclear
  refine ⟨⟨r, hr, by omega, by omega⟩, ?_⟩
  intro x hx
  apply hclear x
  simp only [mem_range] at hx ⊢
  omega

/-- The rounding of an address does not leave the 32 bits. -/
def Fits (st : RamState) (align : Nat) : Prop := ∀ r ∈ st.ram, r.stop + align ≤ paddrs

theorem findRam_spec {st : RamState} (hsep : Separated st.ram) {k size addr : Nat}
    (hk : k ≤ 32) (hfits : Fits st (2 ^ k)) (h : findRam st size (2 ^ k) 0 0 = some addr) :
    Placed st size addr ∧ 2 ^ k ∣ addr ∧ addr + size < paddrs := by
  have hloop : ∀ ram, (∀ r ∈ ram, r ∈ st.ram) →
      findRamInRange st.avoid 0 (paddrs - 1) size (2 ^ k) 0 0 ram = some addr →
      Placed st size addr ∧ 2 ^ k ∣ addr ∧ addr + size < paddrs := by
    intro ram hram h
    induction ram with
    | nil => cases h
    | cons r rest ih =>
      have hrest := ih fun t ht => hram t (.tail _ ht)
      have hr := hram r (.head _)
      have hpos := hsep.positive r hr
      rw [findRamInRange] at h
      split at h
      · exact hrest h
      · next s e hclip =>
        have hlt : r.addr < r.stop := by
          unfold Segment.stop
          omega
        obtain ⟨_, he, hse, _⟩ := clip_spec hclip hlt
        have hfit := hfits r hr
        dsimp only at he hse
        obtain ⟨hdvd, hle⟩ := round_spec (x := s) hk (by omega)
        have hp : paddrs - 1 ≠ 0 := by decide
        simp only [Nat.and_zero, ne_eq, not_true_eq_false, if_false, false_and, hp,
          not_false_eq_true, true_and] at h
        have hend : (if e > paddrs - 1 then paddrs - 1 else e) ≤ min e (paddrs - 1) := by
          split <;> omega
        generalize (if e > paddrs - 1 then paddrs - 1 else e) = stop at h hend
        split at h
        · exact hrest h
        · split at h
          · cases h
            have hpos2 : 0 < paddrs := by decide
            exact ⟨placed_of_window hr hpos hclip hle (by omega), hdvd, by omega⟩
          · exact hrest h
  exact hloop st.ram (fun r hr => hr) h

/-- A piece of free memory clear of what is kept off is passed over only if no block fits. -/
theorem findRam_eq_none {st : RamState} (hsep : Separated st.ram)
    (listed : ∀ a ∈ st.avoid, a.start < a.stop) {k size : Nat} (hk : k ≤ 32)
    (hfits : Fits st (2 ^ k)) (hsize : 0 < size) (h : findRam st size (2 ^ k) 0 0 = none)
    {r : Segment} (hr : r ∈ st.ram) (hclear : ∀ x ∈ r.cells, x ∉ avoided st.avoid)
    {addr : Nat} (hdvd : 2 ^ k ∣ addr) (haddr : r.addr ≤ addr) : r.stop < addr + size := by
  have hloop : ∀ ram,
      findRamInRange st.avoid 0 (paddrs - 1) size (2 ^ k) 0 0 ram = none →
      r ∈ ram → r.stop < addr + size := by
    intro ram h hmem
    induction ram with
    | nil => cases hmem
    | cons t rest ih =>
      rw [findRamInRange] at h
      rcases List.mem_cons.mp hmem with rfl | hmem
      · have hfit := hfits r hr
        have hpos := hsep.positive r hr
        have hstop : r.stop = r.addr + r.size := rfl
        have hround := round_le (x := r.addr) hk (by omega) hdvd haddr
        have hpow := Nat.two_pow_pos k
        have hp : paddrs - 1 ≠ 0 := by decide
        have hend : ¬ r.stop > paddrs - 1 := by omega
        have hlt : (r.addr, r.stop).1 < (r.addr, r.stop).2 := by
          dsimp only
          omega
        rw [clip_clear listed hlt hclear] at h
        simp only [Nat.and_zero, ne_eq, not_true_eq_false, if_false, false_and, hp,
          not_false_eq_true, true_and, hend] at h
        by_contra hroom
        rw [if_neg (by omega), if_pos (by omega)] at h
        cases h
      · split at h
        · exact ih h hmem
        · next s e _ =>
          dsimp only at h
          generalize (if paddrs - 1 ≠ 0 ∧ e > paddrs - 1 then paddrs - 1 else e) = stop at h
          generalize (if round s (2 ^ k) &&& 0 ≠ 0 then recolour (round s (2 ^ k)) 0 0
            else round s (2 ^ k)) = first at h
          generalize (if 0 ≠ 0 ∧ first < 0 then 0 else first) = first at h
          rcases Nat.lt_or_ge first stop with hlt | hge
          · rw [if_neg (Nat.not_le_of_lt hlt)] at h
            split at h
            · cases h
            · exact ih h hmem
          · rw [if_pos hge] at h
            exact ih h hmem
  exact hloop st.ram h hr

theorem findTop_spec {st : RamState} (hsep : Separated st.ram) {size align : Nat} :
    ∀ ram, (∀ r ∈ ram, r ∈ st.ram) → ∀ top, findTop st.avoid size align ram top = top ∨
      Placed st size (findTop st.avoid size align ram top) := by
  intro ram hram
  induction ram with
  | nil => exact fun top => Or.inl rfl
  | cons r rest ih =>
    have hrest := ih fun t ht => hram t (.tail _ ht)
    intro top
    rw [findTop]
    split
    · exact hrest top
    · next s e hclip =>
      split
      · next hsize =>
        dsimp only
        have hchk : (if align ≠ 0 then trunc (e - size) align else (e - size) % paddrs) ≤
            e - size := by
          split
          · exact trunc_le _ _
          · exact Nat.mod_le _ _
        generalize (if align ≠ 0 then trunc (e - size) align else (e - size) % paddrs) = chk
          at hchk
        split
        · next hs =>
          rcases hrest chk with heq | hplaced
          · rw [heq]
            have hpos := hsep.positive r (hram r (.head _))
            have hlt : r.addr < r.stop := by
              unfold Segment.stop
              omega
            obtain ⟨_, _, hse, _⟩ := clip_spec hclip hlt
            dsimp only at hse
            exact Or.inr (placed_of_window (hram r (.head _)) hpos hclip hs.1 (by omega))
          · exact Or.inr hplaced
        · exact hrest top
      · exact hrest top

theorem findTopRamAligned_spec {st : RamState} (hsep : Separated st.ram)
    {size align pagesize addr : Nat} (h : findTopRamAligned st size align pagesize = some addr) :
    Placed st (round size pagesize) addr := by
  unfold findTopRamAligned at h
  split at h
  · cases h
  · next top htop =>
    cases h
    rcases findTop_spec hsep st.ram (fun r hr => hr) 0 with heq | hplaced
    · rw [htop] at heq
      cases heq
    · rwa [htop] at hplaced

end FridaCI.Startup
