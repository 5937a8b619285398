import FridaCI.Startup.Ram
import Mathlib

/-!
# Runs of the memory of the startup program

What alloc_ram and add_mem do to the list of free memory, and what holds after any
sequence of calls.
-/

namespace FridaCI.Startup
open Segments

set_option autoImplicit false

/-! ## One round of the loop of alloc_ram

The loop stands at `r`, behind `before`. -/

section Round
variable {addr stop fuel : Nat} {before rest : List Segment} {r : Segment}

theorem getElem?_middle : (before ++ r :: rest)[before.length]? = some r := by simp

theorem set_middle (t : Segment) :
    (before ++ r :: rest).set before.length t = before ++ t :: rest := by simp

theorem eraseIdx_middle : (before ++ r :: rest).eraseIdx before.length = before ++ rest := by
  simp [List.eraseIdx_append_of_length_le]

theorem allocLoop_nil : allocLoop addr stop (fuel + 1) before before.length = .ok before := by
  simp [allocLoop]

theorem allocLoop_skip (hr : r.stop ≤ addr ∨ stop < r.addr) (hlt : addr < stop)
    (hpos : 0 < r.size) :
    allocLoop addr stop (fuel + 1) (before ++ r :: rest) before.length =
      allocLoop addr stop fuel (before ++ r :: rest) (before.length + 1) := by
  rw [allocLoop, getElem?_middle]
  dsimp only
  rw [if_neg]
  unfold Segment.stop at *
  omega

theorem allocLoop_erase (haddr : addr ≤ r.addr) (hstop : r.stop ≤ stop) (hpos : 0 < r.size) :
    allocLoop addr stop (fuel + 1) (before ++ r :: rest) before.length =
      allocLoop addr stop fuel (before ++ rest) before.length := by
  have hs : addr = if addr < r.addr then addr else r.addr := by split <;> omega
  have he : stop = if stop > r.stop then stop else r.stop := by split <;> omega
  rw [allocLoop, getElem?_middle]
  dsimp only
  rw [if_pos (by unfold Segment.stop at *; omega), if_pos ⟨hs, he⟩, eraseIdx_middle]

theorem allocLoop_head (haddr : addr ≤ r.addr) (hle : r.addr ≤ stop) (hstop : stop < r.stop) :
    allocLoop addr stop (fuel + 1) (before ++ r :: rest) before.length =
      allocLoop addr stop fuel (before ++ ⟨stop, r.stop - stop⟩ :: rest)
        (before.length + 1) := by
  have hs : addr = if addr < r.addr then addr else r.addr := by split <;> omega
  have he : (if stop > r.stop then stop else r.stop) = r.stop := if_neg (by omega)
  rw [allocLoop, getElem?_middle]
  dsimp only
  rw [if_pos (by omega), he, if_neg (by omega), if_pos hs, set_middle]

theorem allocLoop_tail (haddr : r.addr < addr) (hlt : addr < r.stop) (hstop : r.stop ≤ stop) :
    allocLoop addr stop (fuel + 1) (before ++ r :: rest) before.length =
      allocLoop addr stop fuel (before ++ ⟨r.addr, addr - r.addr⟩ :: rest)
        (before.length + 1) := by
  have hs : (if addr < r.addr then addr else r.addr) = r.addr := if_neg (by omega)
  have he : (if stop > r.stop then stop else r.stop) = stop := by split <;> omega
  rw [allocLoop, getElem?_middle]
  dsimp only
  rw [if_pos (by omega), hs, he, if_neg (by omega), if_neg (by omega), if_neg (by simp),
    set_middle]

theorem allocLoop_split (haddr : r.addr < addr) (hlt : addr < stop) (hstop : stop < r.stop) :
    allocLoop addr stop (fuel + 1) (before ++ r :: rest) before.length =
      (addMem (before ++ ⟨r.addr, addr - r.addr⟩ :: rest) stop (r.stop - stop)).bind
        fun ram => allocLoop addr stop fuel ram (before.length + 1) := by
  have hs : (if addr < r.addr then addr else r.addr) = r.addr := if_neg (by omega)
  have he : (if stop > r.stop then stop else r.stop) = r.stop := if_neg (by omega)
  rw [allocLoop, getElem?_middle]
  dsimp only
  rw [if_pos (by omega), hs, he, if_neg (by omega), if_neg (by omega), if_pos (by omega),
    set_middle]

end Round

/-! ## The whole loop -/

/-- Behind the range the loop changes nothing. -/
theorem allocLoop_behind {addr stop : Nat} (hlt : addr < stop) {rest : List Segment}
    (hbehind : ∀ r ∈ rest, stop ≤ r.addr) (hpos : ∀ r ∈ rest, 0 < r.size)
    (before : List Segment) {fuel : Nat} (hfuel : rest.length < fuel) :
    allocLoop addr stop fuel (before ++ rest) before.length = .ok (before ++ rest) := by
  induction rest generalizing before fuel with
  | nil =>
    obtain ⟨fuel, rfl⟩ := Nat.exists_eq_succ_of_ne_zero (Nat.ne_of_gt hfuel)
    rw [List.append_nil]
    exact allocLoop_nil
  | cons r rest ih =>
    obtain ⟨fuel, rfl⟩ := Nat.exists_eq_succ_of_ne_zero (Nat.ne_of_gt (Nat.zero_lt_of_lt hfuel))
    have hr := hbehind r (.head _)
    have hsize := hpos r (.head _)
    have hnext := @ih (fun t ht => hbehind t (.tail _ ht)) (fun t ht => hpos t (.tail _ ht))
      (before ++ [r]) fuel (by simpa using hfuel)
    simp only [List.length_append, List.length_singleton, List.append_assoc,
      List.singleton_append] at hnext
    rcases Nat.lt_or_eq_of_le hr with hgap | heq
    · rw [allocLoop_skip (Or.inr hgap) hlt hsize, hnext]
    · have hself : (⟨stop, r.stop - stop⟩ : Segment) = r := by
        ext
        · exact heq
        · simp only [Segment.stop]
          omega
      rw [allocLoop_head (by omega) (by omega) (by unfold Segment.stop; omega), hself, hnext]

theorem full_of_crash {ram : List Segment}
    (h : ramListSize ram > maxRamListSize - ramEntrySize) : 191 ≤ ram.length := by
  simp only [ramListSize, maxRamListSize, ramEntrySize] at h
  omega

/-- The loop cuts the range out of the list, or crashes on a full list. -/
theorem allocLoop_spec {addr stop : Nat} (hlt : addr < stop) {rest : List Segment}
    (before : List Segment) (hsep : Separated (before ++ rest)) {fuel : Nat}
    (hfuel : rest.length + 2 ≤ fuel) :
    allocLoop addr stop fuel (before ++ rest) before.length =
        .ok (before ++ without addr stop rest) ∨
      (allocLoop addr stop fuel (before ++ rest) before.length = .crash ∧
        191 ≤ (before ++ rest).length) := by
  induction rest generalizing before fuel with
  | nil =>
    obtain ⟨fuel, rfl⟩ := Nat.exists_eq_succ_of_ne_zero (Nat.ne_of_gt (Nat.zero_lt_of_lt hfuel))
    apply Or.inl
    rw [List.append_nil, allocLoop_nil, without, List.flatMap_nil, List.append_nil]
  | cons r rest ih =>
    obtain ⟨fuel, rfl⟩ := Nat.exists_eq_succ_of_ne_zero (Nat.ne_of_gt (Nat.zero_lt_of_lt hfuel))
    have hfuel' : rest.length + 2 ≤ fuel := by
      simp only [List.length_cons] at hfuel
      omega
    have hsize := hsep.positive r (List.mem_append_right _ (.head _))
    have hwithout : without addr stop (r :: rest) =
        pieces addr stop r ++ without addr stop rest := rfl
    -- Past an entry that has become `t` the loop goes on behind `before` and `t`.
    have hnext : ∀ t : Segment, Separated (before ++ t :: rest) →
        allocLoop addr stop fuel (before ++ t :: rest) (before.length + 1) =
            .ok (before ++ t :: without addr stop rest) ∨
          (allocLoop addr stop fuel (before ++ t :: rest) (before.length + 1) = .crash ∧
            191 ≤ (before ++ r :: rest).length) := by
      intro t ht
      have h := ih (before ++ [t]) (by simpa using ht) hfuel'
      simpa using h
    rcases Nat.lt_or_ge addr r.stop with hover | hskip
    · rcases Nat.lt_or_ge stop r.addr with hskip | hle
      · rw [allocLoop_skip (Or.inr hskip) hlt hsize, hwithout,
          pieces_outside (Or.inr hskip) hlt hsize]
        exact hnext r hsep
      rcases Nat.lt_or_ge r.addr addr with haddr | haddr
      · rcases Nat.lt_or_ge stop r.stop with hend | hend
        · -- The piece behind the range is inserted right behind the one in front of it.
          have hmid : Separated (before ++ ⟨r.addr, addr - r.addr⟩ ::
              ⟨stop, r.stop - stop⟩ :: rest) := by
            apply hsep.split
            · exact Nat.sub_pos_of_lt haddr
            · exact Nat.sub_pos_of_lt hend
            · exact Nat.le_refl _
            · simp only [Segment.stop]
              omega
            · simp only [Segment.stop] at *
              omega
          rw [allocLoop_split haddr hlt hend, addMem, if_pos (Nat.sub_pos_of_lt hend)]
          split
          · next hfull => exact Or.inr ⟨rfl, by simpa using full_of_crash hfull⟩
          · apply Or.inl
            have hadd : addSegment ⟨stop, r.stop - stop⟩
                (before ++ ⟨r.addr, addr - r.addr⟩ :: rest) =
                before ++ ⟨r.addr, addr - r.addr⟩ :: ⟨stop, r.stop - stop⟩ :: rest := by
              have h := @addSegment_between ⟨stop, r.stop - stop⟩
                (before ++ [⟨r.addr, addr - r.addr⟩]) rest (by simpa using hmid)
              simpa using h
            obtain ⟨_, hr, _⟩ := separated_append.mp hsep
            have hgap := (separated_cons.mp hr).2.1
            have hbehind : ∀ t ∈ rest, stop < t.addr :=
              fun t ht => Nat.lt_trans hend (hgap t ht)
            have hloop := @allocLoop_behind _ _ hlt (⟨stop, r.stop - stop⟩ :: rest)
              (List.forall_mem_cons.mpr ⟨Nat.le_refl _, fun t ht => (hbehind t ht).le⟩)
              (fun t ht => hmid.positive t (List.mem_append_right _ (.tail _ ht)))
              (before ++ [⟨r.addr, addr - r.addr⟩]) fuel
              (by rw [List.length_cons]; exact hfuel')
            have hsame := without_of_behind hlt hbehind
              fun t ht => hsep.positive t (List.mem_append_right _ (.tail _ ht))
            rw [hwithout, pieces_middle haddr hlt hend, hsame]
            simp only [Result.bind, hadd]
            simpa using hloop
        · rw [allocLoop_tail haddr hover hend, hwithout, pieces_tail haddr hover hend]
          apply hnext
          apply hsep.replace
          · exact Nat.sub_pos_of_lt haddr
          · exact Nat.le_refl _
          · simp only [Segment.stop] at *
            omega
      · rcases Nat.lt_or_ge stop r.stop with hend | hend
        · rw [allocLoop_head haddr hle hend, hwithout, pieces_head haddr hle hend]
          apply hnext
          apply hsep.replace
          · exact Nat.sub_pos_of_lt hend
          · exact hle
          · simp only [Segment.stop] at *
            omega
        · rw [allocLoop_erase haddr hend hsize, hwithout, pieces_covered haddr hend,
            List.nil_append]
          refine (ih before hsep.erase hfuel').imp_right fun h => ⟨h.1, ?_⟩
          have := h.2
          simp only [List.length_append, List.length_cons] at this ⊢
          omega
    · rw [allocLoop_skip (Or.inl hskip) hlt hsize, hwithout,
        pieces_outside (Or.inl hskip) hlt hsize]
      exact hnext r hsep

/-! ## The calls -/

theorem addMem_spec {ram : List Segment} (hsep : Separated ram) (start size : Nat) :
    (∃ ram', addMem ram start size = .ok ram' ∧ Separated ram' ∧
      cells ram' = cells ram ∪ range start (start + size)) ∨
    (addMem ram start size = .crash ∧ 191 ≤ ram.length) := by
  unfold addMem
  split
  · next hsize =>
    split
    · next hfull => exact Or.inr ⟨rfl, full_of_crash hfull⟩
    · obtain ⟨hsep', hcells⟩ := addSegment_spec hsep (s := ⟨start, size⟩) hsize
      refine Or.inl ⟨_, rfl, hsep', ?_⟩
      rw [hcells, Set.union_comm]
      rfl
  · next hsize =>
    refine Or.inl ⟨ram, rfl, hsep, ?_⟩
    ext x
    constructor
    · exact Or.inl
    · rintro (hx | hx)
      · exact hx
      · simp only [mem_range] at hx
        omega

theorem takeRam_spec {st : RamState} (hsep : Separated st.ram) {addr size : Nat}
    (hsize : 0 < size) (hend : addr + size < paddrs) :
    (∃ ram', takeRam st addr size = .ok { st with ram := ram' } ∧ Separated ram' ∧
      cells ram' = cells st.ram \ range addr (addr + size)) ∨
    (takeRam st addr size = .crash ∧ 191 ≤ st.ram.length) := by
  have hlt : addr < addr + size := by omega
  have hloop := @allocLoop_spec _ _ hlt st.ram [] hsep (st.ram.length + 3) (by omega)
  simp only [List.nil_append, List.length_nil] at hloop
  unfold takeRam
  rw [Nat.mod_eq_of_lt hend]
  rcases hloop with hok | ⟨hcrash, hfull⟩
  · refine Or.inl ⟨_, by rw [hok]; rfl, hsep.without hlt, cells_without _ _ _⟩
  · exact Or.inr ⟨by rw [hcrash]; rfl, hfull⟩

/-! ## Runs

The calls of a run, newest first. `handed` are the blocks that alloc_ram and reserve_ram have
chosen, `lent` those of ws_alloc, which stay in the list. -/

inductive Event where
  | added (start size : Nat)
  | taken (addr size : Nat)
  | handed (addr size : Nat)
  | lent (addr size : Nat)
  | kept (start size : Nat)
  deriving DecidableEq, Repr

/-- The free memory after the calls: what was added, without what was taken since. -/
def freeAfter : List Event → Set Nat
  | [] => ∅
  | .added start size :: log => freeAfter log ∪ range start (start + size)
  | .taken addr size :: log => freeAfter log \ range addr (addr + size)
  | .handed addr size :: log => freeAfter log \ range addr (addr + size)
  | .lent _ _ :: log => freeAfter log
  | .kept _ _ :: log => freeAfter log

def Event.block : Event → Option Segment
  | .handed addr size => some ⟨addr, size⟩
  | .lent addr size => some ⟨addr, size⟩
  | _ => none

/-- The blocks that the library has given away. -/
def blocks (log : List Event) : List Segment := log.filterMap Event.block

/-- A call that returns. Memory is added once: none of it has been given away before. -/
inductive Call : RamState × List Event → RamState × List Event → Prop where
  | addMem {st : RamState} {log : List Event} {start size : Nat} {ram : List Segment}
      (fresh : ∀ b ∈ blocks log, Disjoint b.cells (range start (start + size)))
      (h : Startup.addMem st.ram start size = .ok ram) :
      Call (st, log) ({ st with ram }, .added start size :: log)
  | takeRam {st st' : RamState} {log : List Event} {addr size : Nat} (hsize : 0 < size)
      (hend : addr + size < paddrs) (h : Startup.takeRam st addr size = .ok st') :
      Call (st, log) (st', .taken addr size :: log)
  | allocRam {st st' : RamState} {log : List Event} {size k addr : Nat} (hsize : 0 < size)
      (hk : k ≤ 32) (hfits : Fits st (2 ^ k))
      (h : Startup.allocRam st size (2 ^ k) = .ok (st', some addr)) :
      Call (st, log) (st', .handed addr size :: log)
  | reserveRam {st st' : RamState} {log : List Event} {size align k addr : Nat} (hk : k ≤ 32)
      (hround : size + 2 ^ k ≤ paddrs) (hfits : Fits st 1)
      (h : Startup.reserveRam st size align (2 ^ k) = .ok (st', some addr)) :
      Call (st, log) (st', .handed addr size :: log)
  | wsAlloc {st st' : RamState} {log : List Event} {size addr : Nat}
      (hsize : 0 < round size 8) (hfits : Fits st 8)
      (h : Startup.wsAlloc st size = (st', some addr)) :
      Call (st, log) (st', .lent addr (round size 8) :: log)
  | avoidRam {st : RamState} {log : List Event} {start size : Nat} (hsize : 0 < size)
      (hend : start + size < paddrs) :
      Call (st, log) (Startup.avoidRam st start size, .kept start size :: log)

/-- Before the first call no memory has been added. -/
def fresh (avoid : List AvoidEntry) : RamState × List Event := (⟨[], avoid⟩, [])

abbrev Calls (avoid : List AvoidEntry) (s : RamState × List Event) : Prop :=
  Relation.ReflTransGen Call (fresh avoid) s

/-- The list stands for the free memory; a block that was given away is either not free or kept
off; and no two blocks share an address. -/
structure Sound (s : RamState × List Event) : Prop where
  separated : Separated s.1.ram
  free : cells s.1.ram = freeAfter s.2
  listed : ∀ a ∈ s.1.avoid, a.start < a.stop
  given : ∀ b ∈ blocks s.2, ∀ x ∈ b.cells, x ∉ cells s.1.ram \ avoided s.1.avoid
  disjoint : (blocks s.2).Pairwise fun a b => Disjoint a.cells b.cells

theorem avoided_of_listed {avoid : List AvoidEntry} (h : ∀ a ∈ avoid, a.start < a.stop) :
    avoided avoid = {x | ∃ a ∈ avoid, x ∈ range a.start a.stop} := by
  have hall : avoid.takeWhile (fun a => a.stop ≠ 0) = avoid := by
    rw [List.takeWhile_eq_self_iff]
    intro a ha
    simpa using Nat.ne_of_gt (Nat.zero_lt_of_lt (h a ha))
  rw [avoided, hall]

theorem avoided_avoidRam {st : RamState} (h : ∀ a ∈ st.avoid, a.start < a.stop) {start size : Nat}
    (hsize : 0 < size) (hend : start + size < paddrs) :
    (∀ a ∈ (avoidRam st start size).avoid, a.start < a.stop) ∧
    avoided (avoidRam st start size).avoid = avoided st.avoid ∪ range start (start + size) := by
  have hmod : (start + size) % paddrs = start + size := Nat.mod_eq_of_lt hend
  have hlisted : ∀ a ∈ (avoidRam st start size).avoid, a.start < a.stop := by
    intro a ha
    rcases List.mem_append.mp ha with ha | ha
    · exact h a ha
    · obtain rfl := List.mem_singleton.mp ha
      dsimp only
      omega
  refine ⟨hlisted, ?_⟩
  rw [avoided_of_listed hlisted, avoided_of_listed h]
  ext x
  simp only [avoidRam, hmod, List.mem_append, List.mem_singleton, Set.mem_ofPred_eq,
    Set.mem_union]
  constructor
  · rintro ⟨a, ha | rfl, hx⟩
    · exact Or.inl ⟨a, ha, hx⟩
    · exact Or.inr hx
  · rintro (⟨a, ha, hx⟩ | hx)
    · exact ⟨a, Or.inl ha, hx⟩
    · exact ⟨_, Or.inr rfl, hx⟩

theorem Sound.fresh_block {s : RamState × List Event} (hs : Sound s) {addr size : Nat}
    (hplaced : Placed s.1 size addr) :
    ∀ b ∈ blocks s.2, Disjoint (Segment.mk addr size).cells b.cells := by
  intro b hb
  rw [Set.disjoint_left]
  intro x hx hxb
  exact hs.given b hb x hxb (hplaced.free hx)

/-- A block that was found and is taken out of the list. -/
theorem Sound.hand {st st' : RamState} {log : List Event} (hs : Sound (st, log))
    {addr size : Nat} (hplaced : Placed st size addr) (hsize : 0 < size)
    (hend : addr + size < paddrs) (h : Startup.takeRam st addr size = .ok st') :
    Sound (st', .handed addr size :: log) := by
  rcases takeRam_spec hs.separated hsize hend with ⟨ram', hok, hsep, hcells⟩ | ⟨hcrash, _⟩
  · obtain rfl : { st with ram := ram' } = st' := by
      rw [hok] at h
      injection h
    refine ⟨hsep, ?_, hs.listed, ?_, ?_⟩
    · rw [freeAfter, ← hs.free]
      exact hcells
    · intro b hb x hx ⟨hmem, hclear⟩
      rw [hcells] at hmem
      rcases List.mem_cons.mp hb with rfl | hb
      · exact hmem.2 hx
      · exact hs.given b hb x hx ⟨hmem.1, hclear⟩
    · exact List.pairwise_cons.mpr ⟨hs.fresh_block hplaced, hs.disjoint⟩
  · rw [hcrash] at h
    cases h

theorem Sound.call {s t : RamState × List Event} (hs : Sound s) (h : Call s t) : Sound t := by
  cases h with
  | @addMem st log start size ram fresh h =>
    rcases addMem_spec hs.separated start size with
      ⟨ram', hok, hsep, hcells⟩ | ⟨hcrash, _⟩
    · obtain rfl : ram' = ram := by
        rw [hok] at h
        injection h
      refine ⟨hsep, ?_, hs.listed, ?_, hs.disjoint⟩
      · rw [freeAfter, ← hs.free]
        exact hcells
      · intro b hb x hx ⟨hmem, hclear⟩
        rw [hcells] at hmem
        rcases hmem with hmem | hmem
        · exact hs.given b hb x hx ⟨hmem, hclear⟩
        · exact Set.disjoint_left.mp (fresh b hb) hx hmem
    · rw [hcrash] at h
      cases h
  | @takeRam st st' log addr size hsize hend h =>
    rcases takeRam_spec hs.separated hsize hend with ⟨ram', hok, hsep, hcells⟩ | ⟨hcrash, _⟩
    · obtain rfl : { st with ram := ram' } = st' := by
        rw [hok] at h
        injection h
      refine ⟨hsep, ?_, hs.listed, ?_, hs.disjoint⟩
      · rw [freeAfter, ← hs.free]
        exact hcells
      · intro b hb x hx ⟨hmem, hclear⟩
        rw [hcells] at hmem
        exact hs.given b hb x hx ⟨hmem.1, hclear⟩
    · rw [hcrash] at h
      cases h
  | @allocRam st st' log size k addr hsize hk hfits h =>
    unfold Startup.allocRam at h
    split at h
    · cases h
    · next addr' hfind =>
      obtain ⟨hplaced, _, hend⟩ := findRam_spec hs.separated hk hfits hfind
      obtain ⟨st₁, htake, h⟩ := Result.bind_eq_ok h
      cases h
      exact hs.hand hplaced hsize hend htake
  | @reserveRam st st' log size align k addr hk hround hfits h =>
    unfold Startup.reserveRam at h
    split at h
    · cases h
    · next hsize =>
      dsimp only at h
      split at h
      · cases h
      · next addr' hfind =>
        have hplaced := findTopRamAligned_spec hs.separated hfind
        obtain ⟨r, hr, _, hstop⟩ := hplaced.inside
        have hle := (round_spec hk hround).2
        have hfit := hfits r hr
        obtain ⟨st₁, htake, h⟩ := Result.bind_eq_ok h
        cases h
        exact hs.hand (hplaced.shorter hle) (by omega) (by omega) htake
  | @wsAlloc st st' log size addr hsize hfits h =>
    unfold Startup.wsAlloc at h
    split at h
    · cases h
    · next addr' hfind =>
      obtain ⟨hplaced, _, hend⟩ := findRam_spec (k := 3) hs.separated (by decide) hfits hfind
      cases h
      obtain ⟨hlisted, havoid⟩ := avoided_avoidRam hs.listed hsize hend
      refine ⟨hs.separated, hs.free, hlisted, ?_, ?_⟩
      · intro b hb x hx ⟨hmem, hclear⟩
        rw [havoid] at hclear
        rcases List.mem_cons.mp hb with rfl | hb
        · exact hclear (Or.inr hx)
        · exact hs.given b hb x hx ⟨hmem, fun h => hclear (Or.inl h)⟩
      · exact List.pairwise_cons.mpr ⟨hs.fresh_block hplaced, hs.disjoint⟩
  | @avoidRam st log start size hsize hend =>
    obtain ⟨hlisted, havoid⟩ := avoided_avoidRam hs.listed hsize hend
    refine ⟨hs.separated, hs.free, hlisted, ?_, hs.disjoint⟩
    intro b hb x hx ⟨hmem, hclear⟩
    rw [havoid] at hclear
    exact hs.given b hb x hx ⟨hmem, fun h => hclear (Or.inl h)⟩

theorem calls_sound {avoid : List AvoidEntry} (listed : ∀ a ∈ avoid, a.start < a.stop)
    {s : RamState × List Event} (h : Calls avoid s) : Sound s := by
  induction h with
  | refl =>
    refine ⟨separated_nil, ?_, listed, ?_, .nil⟩
    · simp [fresh, freeAfter]
    · intro b hb
      cases hb
  | tail _ hcall ih => exact ih.call hcall

theorem fits_single {start size align : Nat} (h : start + size + align ≤ paddrs) :
    Fits ⟨[⟨start, size⟩], []⟩ align := by
  intro r hr
  obtain rfl := List.mem_singleton.mp hr
  exact h

/-- A run that takes the first two pages of the memory. -/
theorem calls_two_pages : Calls [] (⟨[⟨0x10002000, 0x3fffe000⟩], []⟩,
    [.handed 0x10001000 0x1000, .handed 0x10000000 0x1000, .added 0x10000000 0x40000000]) := by
  have hadd : Call (fresh []) (⟨[⟨0x10000000, 0x40000000⟩], []⟩,
      [.added 0x10000000 0x40000000]) :=
    .addMem (fun b hb => by cases hb) rfl
  have hfirst : Call (⟨[⟨0x10000000, 0x40000000⟩], []⟩, [.added 0x10000000 0x40000000])
      (⟨[⟨0x10001000, 0x3ffff000⟩], []⟩,
        [.handed 0x10000000 0x1000, .added 0x10000000 0x40000000]) :=
    .allocRam (k := 12) (by decide) (by decide) (fits_single (by decide)) (by decide)
  refine ((Relation.ReflTransGen.single hadd).tail hfirst).tail ?_
  exact .allocRam (k := 12) (by decide) (by decide) (fits_single (by decide)) (by decide)

end FridaCI.Startup
