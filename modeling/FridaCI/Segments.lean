import Mathlib.Data.Set.Insert
import Mathlib.Order.BooleanAlgebra.Set
import Mathlib.Data.List.Basic

/-!
# Lists of segments

A segment is a block of consecutive addresses; a list of segments stands for the set of
their addresses. In a separated list the segments are not empty, come in ascending order
and do not even touch each other, so the list is determined by the set. This module
inserts a segment into such a list, merging what touches, and cuts a range out of it.
-/

namespace FridaCI.Segments

set_option autoImplicit false

@[ext] structure Segment where
  addr : Nat
  size : Nat
  deriving DecidableEq, Repr

def Segment.stop (s : Segment) : Nat := s.addr + s.size

/-- The addresses from `lo` up to but not including `hi`. -/
def range (lo hi : Nat) : Set Nat := {x | lo ≤ x ∧ x < hi}

def Segment.cells (s : Segment) : Set Nat := range s.addr s.stop

def cells (l : List Segment) : Set Nat := {x | ∃ s ∈ l, x ∈ s.cells}

structure Separated (l : List Segment) : Prop where
  positive : ∀ s ∈ l, 0 < s.size
  gaps : l.Pairwise fun a b => a.stop < b.addr

@[simp] theorem mem_range {lo hi x : Nat} : x ∈ range lo hi ↔ lo ≤ x ∧ x < hi := Iff.rfl

@[simp] theorem cells_nil : cells [] = ∅ := by
  ext x
  simp [cells]

@[simp] theorem cells_cons (s : Segment) (l : List Segment) :
    cells (s :: l) = s.cells ∪ cells l := by
  ext x
  simp [cells]

@[simp] theorem cells_append (l l' : List Segment) : cells (l ++ l') = cells l ∪ cells l' := by
  induction l with
  | nil => simp
  | cons s l ih => rw [List.cons_append, cells_cons, cells_cons, ih, Set.union_assoc]

theorem separated_nil : Separated [] := ⟨by simp, .nil⟩

theorem separated_cons {s : Segment} {l : List Segment} :
    Separated (s :: l) ↔ 0 < s.size ∧ (∀ t ∈ l, s.stop < t.addr) ∧ Separated l := by
  constructor
  · rintro ⟨hpos, hgaps⟩
    obtain ⟨hs, hl⟩ := List.pairwise_cons.mp hgaps
    exact ⟨hpos s (.head _), hs, fun t ht => hpos t (.tail _ ht), hl⟩
  · rintro ⟨hpos, hs, hl⟩
    refine ⟨?_, List.pairwise_cons.mpr ⟨hs, hl.gaps⟩⟩
    intro t ht
    rcases List.mem_cons.mp ht with rfl | ht
    · exact hpos
    · exact hl.positive t ht

theorem separated_append {l l' : List Segment} :
    Separated (l ++ l') ↔ Separated l ∧ Separated l' ∧ ∀ s ∈ l, ∀ t ∈ l', s.stop < t.addr := by
  constructor
  · rintro ⟨hpos, hgaps⟩
    obtain ⟨hl, hl', hcross⟩ := List.pairwise_append.mp hgaps
    exact ⟨⟨fun s hs => hpos s (List.mem_append_left _ hs), hl⟩,
      ⟨fun s hs => hpos s (List.mem_append_right _ hs), hl'⟩, hcross⟩
  · rintro ⟨hl, hl', hcross⟩
    refine ⟨?_, List.pairwise_append.mpr ⟨hl.gaps, hl'.gaps, hcross⟩⟩
    intro s hs
    rcases List.mem_append.mp hs with hs | hs
    · exact hl.positive s hs
    · exact hl'.positive s hs

/-! ## Insertion -/

/-- Put a segment in front of the first one that starts behind it. -/
def place (s : Segment) : List Segment → List Segment
  | [] => [s]
  | r :: rest => if s.addr < r.addr then s :: r :: rest else r :: place s rest

/-- `p` grown so that it covers `r`, which touches it. -/
def absorb (p r : Segment) : Segment :=
  ⟨p.addr, (if p.stop < r.stop then r.stop else p.stop) - p.addr⟩

/-- Merge each segment into the one before it that it touches. -/
def coalesce : Segment → List Segment → List Segment
  | p, [] => [p]
  | p, r :: rest =>
    if r.addr ≤ p.stop then coalesce (absorb p r) rest else p :: coalesce r rest

def addSegment (s : Segment) (l : List Segment) : List Segment :=
  match place s l with
  | [] => []
  | p :: rest => coalesce p rest

abbrev Ascending (l : List Segment) : Prop := l.Pairwise fun a b => a.addr ≤ b.addr

theorem Separated.ascending {l : List Segment} (h : Separated l) : Ascending l := by
  apply h.gaps.imp
  intro a b hab
  unfold Segment.stop at hab
  omega

theorem mem_place {s t : Segment} {l : List Segment} : t ∈ place s l ↔ t = s ∨ t ∈ l := by
  induction l with
  | nil => simp [place]
  | cons r rest ih =>
    unfold place
    split
    · simp
    · rw [List.mem_cons, ih, List.mem_cons]
      exact or_left_comm

theorem cells_place (s : Segment) (l : List Segment) :
    cells (place s l) = s.cells ∪ cells l := by
  ext x
  constructor
  · rintro ⟨t, ht, hx⟩
    rcases mem_place.mp ht with rfl | ht
    · exact Or.inl hx
    · exact Or.inr ⟨t, ht, hx⟩
  · rintro (hx | ⟨t, ht, hx⟩)
    · exact ⟨s, mem_place.mpr (Or.inl rfl), hx⟩
    · exact ⟨t, mem_place.mpr (Or.inr ht), hx⟩

theorem place_ne_nil (s : Segment) (l : List Segment) : place s l ≠ [] := by
  have hmem : s ∈ place s l := mem_place.mpr (Or.inl rfl)
  exact List.ne_nil_of_mem hmem

theorem Ascending.place {l : List Segment} (h : Ascending l) (s : Segment) :
    Ascending (place s l) := by
  induction l with
  | nil => exact List.pairwise_singleton _ _
  | cons r rest ih =>
    obtain ⟨hr, hrest⟩ := List.pairwise_cons.mp h
    unfold Segments.place
    split
    · next hlt =>
      refine List.pairwise_cons.mpr ⟨?_, h⟩
      intro t ht
      rcases List.mem_cons.mp ht with rfl | ht
      · omega
      · have := hr t ht
        omega
    · next hle =>
      refine List.pairwise_cons.mpr ⟨?_, ih hrest⟩
      intro t ht
      rcases mem_place.mp ht with rfl | ht
      · omega
      · exact hr t ht

theorem place_between {s : Segment} {before behind : List Segment}
    (hbefore : ∀ t ∈ before, t.addr ≤ s.addr) (hbehind : ∀ t ∈ behind, s.addr < t.addr) :
    place s (before ++ behind) = before ++ s :: behind := by
  induction before with
  | nil =>
    cases behind with
    | nil => rfl
    | cons r rest => simp [place, hbehind r (.head _)]
  | cons r rest ih =>
    have hr := hbefore r (.head _)
    rw [List.cons_append, place, if_neg (by omega),
      ih fun t ht => hbefore t (.tail _ ht), List.cons_append]

theorem stop_absorb (p r : Segment) : (absorb p r).stop = max p.stop r.stop := by
  by_cases h : p.stop < r.stop
  · simp only [absorb, if_pos h]
    simp only [Segment.stop] at h ⊢
    omega
  · simp only [absorb, if_neg h]
    simp only [Segment.stop] at h ⊢
    omega

theorem cells_absorb {p r : Segment} (hle : p.addr ≤ r.addr) (htouch : r.addr ≤ p.stop) :
    (absorb p r).cells = p.cells ∪ r.cells := by
  ext x
  simp only [Segment.cells, stop_absorb, mem_range, Set.mem_union]
  simp only [absorb, Segment.stop] at htouch ⊢
  omega

theorem ascending_absorb {p r : Segment} {rest : List Segment} (h : Ascending (p :: r :: rest)) :
    Ascending (absorb p r :: rest) := by
  obtain ⟨hp, hrest⟩ := List.pairwise_cons.mp h
  refine List.pairwise_cons.mpr ⟨?_, (List.pairwise_cons.mp hrest).2⟩
  exact fun t ht => hp t (.tail _ ht)

theorem cells_coalesce {p : Segment} {l : List Segment} (h : Ascending (p :: l)) :
    cells (coalesce p l) = p.cells ∪ cells l := by
  induction l generalizing p with
  | nil => simp [coalesce]
  | cons r rest ih =>
    obtain ⟨hp, hrest⟩ := List.pairwise_cons.mp h
    unfold coalesce
    split
    · next htouch =>
      rw [ih (ascending_absorb h), cells_absorb (hp r (.head _)) htouch, cells_cons,
        Set.union_assoc]
    · rw [cells_cons, ih hrest, cells_cons]

theorem separated_coalesce {p : Segment} {l : List Segment} (h : Ascending (p :: l))
    (positive : ∀ s ∈ p :: l, 0 < s.size) :
    Separated (coalesce p l) ∧ ∀ s ∈ coalesce p l, p.addr ≤ s.addr := by
  induction l generalizing p with
  | nil =>
    refine ⟨separated_cons.mpr ⟨positive p (.head _), by simp, separated_nil⟩, ?_⟩
    intro s hs
    obtain rfl := List.mem_singleton.mp hs
    exact Nat.le_refl _
  | cons r rest ih =>
    obtain ⟨hp, hrest⟩ := List.pairwise_cons.mp h
    unfold coalesce
    split
    · next htouch =>
      have hpos : ∀ s ∈ absorb p r :: rest, 0 < s.size := by
        intro s hs
        rcases List.mem_cons.mp hs with rfl | hs
        · have hp0 := positive p (.head _)
          have hstop := stop_absorb p r
          simp only [absorb, Segment.stop] at hstop ⊢
          omega
        · exact positive s (.tail _ (.tail _ hs))
      exact ih (ascending_absorb h) hpos
    · next hgap =>
      obtain ⟨hsep, hle⟩ := ih hrest fun s hs => positive s (.tail _ hs)
      refine ⟨separated_cons.mpr ⟨positive p (.head _), ?_, hsep⟩, ?_⟩
      · intro t ht
        have := hle t ht
        omega
      · intro s hs
        rcases List.mem_cons.mp hs with rfl | hs
        · exact Nat.le_refl _
        · exact Nat.le_trans (hp r (.head _)) (hle s hs)

theorem coalesce_of_separated {p : Segment} {l : List Segment} (h : Separated (p :: l)) :
    coalesce p l = p :: l := by
  induction l generalizing p with
  | nil => rfl
  | cons r rest ih =>
    obtain ⟨_, hp, hrest⟩ := separated_cons.mp h
    have := hp r (.head _)
    rw [coalesce, if_neg (by omega), ih hrest]

theorem addSegment_spec {s : Segment} {l : List Segment} (h : Separated l) (hs : 0 < s.size) :
    Separated (addSegment s l) ∧ cells (addSegment s l) = s.cells ∪ cells l := by
  unfold addSegment
  split
  · next hnil => exact absurd hnil (place_ne_nil s l)
  · next p rest hplace =>
    have hasc : Ascending (p :: rest) := hplace ▸ h.ascending.place s
    have hpos : ∀ t ∈ p :: rest, 0 < t.size := by
      intro t ht
      rw [← hplace] at ht
      rcases mem_place.mp ht with rfl | ht
      · exact hs
      · exact h.positive t ht
    refine ⟨(separated_coalesce hasc hpos).1, ?_⟩
    rw [cells_coalesce hasc, ← cells_cons, ← hplace, cells_place]

theorem addSegment_between {s : Segment} {before behind : List Segment}
    (h : Separated (before ++ s :: behind)) :
    addSegment s (before ++ behind) = before ++ s :: behind := by
  obtain ⟨hb, hsb, hcross⟩ := separated_append.mp h
  obtain ⟨hpos, hs, _⟩ := separated_cons.mp hsb
  have hplace : place s (before ++ behind) = before ++ s :: behind := by
    apply place_between
    · intro t ht
      have := hcross t ht s (.head _)
      unfold Segment.stop at this
      omega
    · intro t ht
      have := hs t ht
      unfold Segment.stop at this
      omega
  unfold addSegment
  rw [hplace]
  cases before with
  | nil => exact coalesce_of_separated h
  | cons p rest => exact coalesce_of_separated h

/-! ## Removal -/

/-- What is left of a segment without the addresses from `lo` up to `hi`. -/
def pieces (lo hi : Nat) (r : Segment) : List Segment :=
  (if r.addr < lo then [⟨r.addr, min r.stop lo - r.addr⟩] else []) ++
    if hi < r.stop then [⟨max r.addr hi, r.stop - max r.addr hi⟩] else []

def without (lo hi : Nat) (l : List Segment) : List Segment := l.flatMap (pieces lo hi)

theorem cells_pieces (lo hi : Nat) (r : Segment) :
    cells (pieces lo hi r) = r.cells \ range lo hi := by
  ext x
  simp only [pieces, cells_append, Set.mem_union, Set.mem_sdiff, Segment.cells, mem_range]
  constructor
  · rintro (hx | hx)
    · split at hx
      · simp only [cells_cons, cells_nil, Set.union_empty, Segment.cells, mem_range,
          Segment.stop] at hx ⊢
        omega
      · simp at hx
    · split at hx
      · next hhi =>
        simp only [cells_cons, cells_nil, Set.union_empty, Segment.cells, mem_range,
          Segment.stop] at hx hhi ⊢
        omega
      · simp at hx
  · rintro ⟨⟨hle, hlt⟩, hout⟩
    by_cases hx : x < lo
    · apply Or.inl
      rw [if_pos (by omega)]
      simp only [cells_cons, cells_nil, Set.union_empty, Segment.cells, mem_range, Segment.stop]
        at hlt ⊢
      omega
    · apply Or.inr
      rw [if_pos (by omega)]
      simp only [cells_cons, cells_nil, Set.union_empty, Segment.cells, mem_range, Segment.stop]
        at hlt ⊢
      omega

theorem cells_without (lo hi : Nat) (l : List Segment) :
    cells (without lo hi l) = cells l \ range lo hi := by
  induction l with
  | nil =>
    ext x
    simp [without]
  | cons r rest ih =>
    have hcons : without lo hi (r :: rest) = pieces lo hi r ++ without lo hi rest := rfl
    rw [hcons, cells_append, cells_cons, cells_pieces, ih, ← Set.union_sdiff_distrib]

theorem separated_pieces {lo hi : Nat} (h : lo < hi) {r : Segment} (hr : 0 < r.size) :
    Separated (pieces lo hi r) ∧ ∀ t ∈ pieces lo hi r, r.addr ≤ t.addr ∧ t.stop ≤ r.stop := by
  constructor
  · unfold pieces
    refine separated_append.mpr ⟨?_, ?_, ?_⟩
    · split
      · refine separated_cons.mpr ⟨?_, by simp, separated_nil⟩
        simp only [Segment.stop]
        omega
      · exact separated_nil
    · split
      · next hhi =>
        refine separated_cons.mpr ⟨?_, by simp, separated_nil⟩
        simp only [Segment.stop] at hhi ⊢
        omega
      · exact separated_nil
    · intro s hs t ht
      split at hs
      · split at ht
        · obtain rfl := List.mem_singleton.mp hs
          obtain rfl := List.mem_singleton.mp ht
          simp only [Segment.stop]
          omega
        · cases ht
      · cases hs
  · intro t ht
    rcases List.mem_append.mp ht with ht | ht
    · split at ht
      · obtain rfl := List.mem_singleton.mp ht
        simp only [Segment.stop]
        omega
      · cases ht
    · split at ht
      · next hhi =>
        obtain rfl := List.mem_singleton.mp ht
        simp only [Segment.stop] at hhi ⊢
        omega
      · cases ht

theorem Separated.without {l : List Segment} (hl : Separated l) {lo hi : Nat} (h : lo < hi) :
    Separated (without lo hi l) := by
  induction l with
  | nil => exact separated_nil
  | cons r rest ih =>
    obtain ⟨hr, hgap, hrest⟩ := separated_cons.mp hl
    have hcons : Segments.without lo hi (r :: rest) =
        pieces lo hi r ++ Segments.without lo hi rest := rfl
    obtain ⟨hpieces, hbounds⟩ := separated_pieces h hr
    rw [hcons]
    refine separated_append.mpr ⟨hpieces, ih hrest, ?_⟩
    intro s hs t ht
    obtain ⟨r', hr', ht⟩ := List.mem_flatMap.mp ht
    have hs' := (hbounds s hs).2
    have ht' := ((separated_pieces h (hrest.positive r' hr')).2 t ht).1
    have := hgap r' hr'
    omega

section Pieces
variable {lo hi : Nat} {r : Segment}

theorem pieces_outside (h : r.stop ≤ lo ∨ hi < r.addr) (hlt : lo < hi) (hr : 0 < r.size) :
    pieces lo hi r = [r] := by
  have hstop : r.stop = r.addr + r.size := rfl
  rcases h with h | h
  · rw [pieces, if_pos (by omega), if_neg (by omega), List.append_nil, Nat.min_eq_left h]
    congr 1
    ext
    · rfl
    · dsimp only
      omega
  · rw [pieces, if_neg (by omega), if_pos (by omega), List.nil_append,
      Nat.max_eq_left (Nat.le_of_lt h)]
    congr 1
    ext
    · rfl
    · dsimp only
      omega

theorem pieces_covered (hlo : lo ≤ r.addr) (hhi : r.stop ≤ hi) : pieces lo hi r = [] := by
  rw [pieces, if_neg (by omega), if_neg (by omega), List.append_nil]

theorem pieces_head (hlo : lo ≤ r.addr) (hle : r.addr ≤ hi) (hhi : hi < r.stop) :
    pieces lo hi r = [⟨hi, r.stop - hi⟩] := by
  rw [pieces, if_neg (by omega), if_pos hhi, List.nil_append, Nat.max_eq_right hle]

theorem pieces_tail (hlo : r.addr < lo) (hlt : lo < r.stop) (hhi : r.stop ≤ hi) :
    pieces lo hi r = [⟨r.addr, lo - r.addr⟩] := by
  rw [pieces, if_pos hlo, if_neg (by omega), List.append_nil, Nat.min_eq_right (by omega)]

theorem pieces_middle (hlo : r.addr < lo) (hlt : lo < hi) (hhi : hi < r.stop) :
    pieces lo hi r = [⟨r.addr, lo - r.addr⟩, ⟨hi, r.stop - hi⟩] := by
  rw [pieces, if_pos hlo, if_pos hhi, Nat.min_eq_right (by omega), Nat.max_eq_right (by omega)]
  rfl

end Pieces

theorem without_of_behind {lo hi : Nat} (hlt : lo < hi) {l : List Segment}
    (h : ∀ t ∈ l, hi < t.addr) (hpos : ∀ t ∈ l, 0 < t.size) : without lo hi l = l := by
  have hpieces : ∀ t ∈ l, pieces lo hi t = [t] :=
    fun t ht => pieces_outside (Or.inr (h t ht)) hlt (hpos t ht)
  rw [without, List.flatMap_congr hpieces]
  simp

/-! ## Changes in place -/

/-- An entry may shrink in place. -/
theorem Separated.replace {before rest : List Segment} {r t : Segment}
    (h : Separated (before ++ r :: rest)) (hpos : 0 < t.size) (haddr : r.addr ≤ t.addr)
    (hstop : t.stop ≤ r.stop) : Separated (before ++ t :: rest) := by
  obtain ⟨hbefore, hr, hcross⟩ := separated_append.mp h
  obtain ⟨_, hgap, hrest⟩ := separated_cons.mp hr
  refine separated_append.mpr ⟨hbefore, separated_cons.mpr ⟨hpos, ?_, hrest⟩, ?_⟩
  · intro u hu
    exact Nat.lt_of_le_of_lt hstop (hgap u hu)
  · intro s hs u hu
    rcases List.mem_cons.mp hu with rfl | hu
    · exact Nat.lt_of_lt_of_le (hcross s hs r (.head _)) haddr
    · exact hcross s hs u (.tail _ hu)

theorem Separated.erase {before rest : List Segment} {r : Segment}
    (h : Separated (before ++ r :: rest)) : Separated (before ++ rest) := by
  obtain ⟨hbefore, hr, hcross⟩ := separated_append.mp h
  refine separated_append.mpr ⟨hbefore, (separated_cons.mp hr).2.2, ?_⟩
  exact fun s hs u hu => hcross s hs u (.tail _ hu)

/-- An entry may be split in place. -/
theorem Separated.split {before rest : List Segment} {r t u : Segment}
    (h : Separated (before ++ r :: rest)) (ht : 0 < t.size) (hu : 0 < u.size)
    (haddr : r.addr ≤ t.addr) (hgap : t.stop < u.addr) (hstop : u.stop ≤ r.stop) :
    Separated (before ++ t :: u :: rest) := by
  obtain ⟨hbefore, hr, hcross⟩ := separated_append.mp h
  obtain ⟨_, hrgap, hrest⟩ := separated_cons.mp hr
  have huseparated : Separated (u :: rest) :=
    separated_cons.mpr ⟨hu, fun v hv => Nat.lt_of_le_of_lt hstop (hrgap v hv), hrest⟩
  refine separated_append.mpr ⟨hbefore, separated_cons.mpr ⟨ht, ?_, huseparated⟩, ?_⟩
  · intro v hv
    rcases List.mem_cons.mp hv with rfl | hv
    · exact hgap
    · have := hrgap v hv
      unfold Segment.stop at *
      omega
  · intro s hs v hv
    have hs' := hcross s hs r (.head _)
    rcases List.mem_cons.mp hv with rfl | hv
    · omega
    · rcases List.mem_cons.mp hv with rfl | hv
      · unfold Segment.stop at *
        omega
      · exact hcross s hs v (.tail _ hv)

/-! ## The list is determined by its addresses -/

theorem addr_mem_cells {s : Segment} (h : 0 < s.size) (l : List Segment) :
    s.addr ∈ cells (s :: l) := by
  refine ⟨s, .head _, ?_⟩
  simp only [Segment.cells, mem_range, Segment.stop]
  omega

theorem Separated.addr_le {s t : Segment} {l l' : List Segment} (hs : Separated (s :: l))
    (ht : Separated (t :: l')) (h : cells (s :: l) ⊆ cells (t :: l')) : t.addr ≤ s.addr := by
  obtain ⟨t', ht', hx⟩ := h (addr_mem_cells (hs.positive s (.head _)) l)
  simp only [Segment.cells, mem_range] at hx
  rcases List.mem_cons.mp ht' with rfl | ht'
  · exact hx.1
  · have := (List.pairwise_cons.mp ht.ascending).1 t' ht'
    omega

theorem Separated.stop_notMem {s : Segment} {l : List Segment} (h : Separated (s :: l)) :
    s.stop ∉ cells (s :: l) := by
  rintro ⟨t, ht, hx⟩
  simp only [Segment.cells, mem_range] at hx
  rcases List.mem_cons.mp ht with rfl | ht
  · omega
  · have := (separated_cons.mp h).2.1 t ht
    omega

theorem Separated.stop_le {s t : Segment} {l l' : List Segment} (hs : Separated (s :: l))
    (haddr : s.addr = t.addr) (h : cells (t :: l') ⊆ cells (s :: l)) : t.stop ≤ s.stop := by
  by_contra hlt
  apply hs.stop_notMem
  apply h
  refine ⟨t, .head _, ?_⟩
  simp only [Segment.cells, mem_range, Segment.stop] at hlt ⊢
  omega

theorem Separated.mem_tail {s : Segment} {l : List Segment} (h : Separated (s :: l)) {x : Nat} :
    x ∈ cells l ↔ x ∈ cells (s :: l) ∧ s.stop ≤ x := by
  constructor
  · rintro ⟨t, ht, hx⟩
    have := (separated_cons.mp h).2.1 t ht
    refine ⟨⟨t, .tail _ ht, hx⟩, ?_⟩
    simp only [Segment.cells, mem_range] at hx
    omega
  · rintro ⟨⟨t, ht, hx⟩, hle⟩
    rcases List.mem_cons.mp ht with rfl | ht
    · simp only [Segment.cells, mem_range] at hx
      omega
    · exact ⟨t, ht, hx⟩

theorem Separated.eq_of_cells {l l' : List Segment} (hl : Separated l) (hl' : Separated l')
    (h : cells l = cells l') : l = l' := by
  induction l generalizing l' with
  | nil =>
    cases l' with
    | nil => rfl
    | cons t l' =>
      have hmem := addr_mem_cells (hl'.positive t (.head _)) l'
      rw [← h] at hmem
      simp at hmem
  | cons s l ih =>
    cases l' with
    | nil =>
      have hmem := addr_mem_cells (hl.positive s (.head _)) l
      rw [h] at hmem
      simp at hmem
    | cons t l' =>
      have haddr : s.addr = t.addr :=
        Nat.le_antisymm (hl'.addr_le hl h.ge) (hl.addr_le hl' h.le)
      have hstop : s.stop = t.stop :=
        Nat.le_antisymm (hl'.stop_le haddr.symm h.le) (hl.stop_le haddr h.ge)
      have hst : s = t := by
        unfold Segment.stop at hstop
        ext
        · exact haddr
        · omega
      subst hst
      have hcells : cells l = cells l' := by
        ext x
        rw [hl.mem_tail, hl'.mem_tail, h]
      rw [ih (separated_cons.mp hl).2.2 (separated_cons.mp hl').2.2 hcells]

end FridaCI.Segments
