import FridaCI.Startup.Ram
import Mathlib

/-!
# The pieces of an address range

The inner loop of startup/lib/as_add_containing.c, which puts the piece of one entry after the
other into a list of ranges. The ends of a range have 32 bits; `last` is the last address.
-/

namespace FridaCI.Startup
open Segments

set_option autoImplicit false

structure AsRange where
  start : Nat
  last : Nat
  owner : Nat
  deriving DecidableEq

/-- A piece goes into the first range that has its first address, or behind all. -/
def insertPiece (p : AsRange) : List AsRange → List AsRange
  | [] => [p]
  | curr :: rest =>
    if curr.start ≤ p.start ∧ curr.last ≥ p.start then
      if curr.start = p.start ∧ curr.last = p.last then { curr with owner := p.owner } :: rest
      else if curr.start = p.start then p :: { curr with start := (p.last + 1) % paddrs } :: rest
      else
        { curr with last := p.start - 1 } :: p ::
          if curr.last ≠ p.last then ⟨(p.last + 1) % paddrs, curr.last, curr.owner⟩ :: rest
          else rest
    else curr :: insertPiece p rest

/-! ## The addresses of the pieces -/

def AsRange.cells (r : AsRange) : Set Nat := range r.start (r.last + 1)

def pieceCells (l : List AsRange) : Set Nat := {x | ∃ r ∈ l, x ∈ r.cells}

@[simp] theorem pieceCells_nil : pieceCells [] = ∅ := by
  ext x
  simp [pieceCells]

@[simp] theorem pieceCells_cons (r : AsRange) (l : List AsRange) :
    pieceCells (r :: l) = r.cells ∪ pieceCells l := by
  ext x
  simp [pieceCells]

/-- A piece adds its own addresses and no others. -/
theorem cells_insertPiece {p : AsRange} (hp : p.start ≤ p.last) (hlast : p.last + 1 < paddrs)
    (l : List AsRange) : pieceCells (insertPiece p l) = p.cells ∪ pieceCells l := by
  have hmod : (p.last + 1) % paddrs = p.last + 1 := Nat.mod_eq_of_lt hlast
  induction l with
  | nil => rw [insertPiece, pieceCells_cons]
  | cons curr rest ih =>
    rw [insertPiece, hmod]
    split
    · next hin =>
      split
      · next heq =>
        have hcells : ({ curr with owner := p.owner } : AsRange).cells = p.cells := by
          rw [AsRange.cells, AsRange.cells, heq.1, heq.2]
        have hcurr : curr.cells = p.cells := by
          rw [AsRange.cells, AsRange.cells, heq.1, heq.2]
        rw [pieceCells_cons, pieceCells_cons, hcells, hcurr, ← Set.union_assoc, Set.union_self]
      · split
        · next hstart =>
          rw [pieceCells_cons, pieceCells_cons, pieceCells_cons, ← Set.union_assoc,
            ← Set.union_assoc]
          congr 1
          ext x
          simp only [AsRange.cells, Set.mem_union, mem_range]
          omega
        · next hstart =>
          split
          · rw [pieceCells_cons, pieceCells_cons, pieceCells_cons, pieceCells_cons,
              ← Set.union_assoc, ← Set.union_assoc, ← Set.union_assoc]
            congr 1
            ext x
            simp only [AsRange.cells, Set.mem_union, mem_range]
            omega
          · rw [pieceCells_cons, pieceCells_cons, pieceCells_cons, ← Set.union_assoc,
              ← Set.union_assoc]
            congr 1
            ext x
            simp only [AsRange.cells, Set.mem_union, mem_range]
            omega
    · rw [pieceCells_cons, pieceCells_cons, ih, Set.union_left_comm]

/-- What is good of an owner from one address to another is good of it on each part. -/
def Shrinks (good : Nat → Nat → Nat → Prop) : Prop :=
  ∀ o a b a' b' : Nat, good o a b → a ≤ a' → b' ≤ b → good o a' b'

def Held (good : Nat → Nat → Nat → Prop) (l : List AsRange) : Prop :=
  ∀ r ∈ l, r.start ≤ r.last → good r.owner r.start r.last

theorem held_cons {good : Nat → Nat → Nat → Prop} {r : AsRange} {l : List AsRange} :
    Held good (r :: l) ↔ (r.start ≤ r.last → good r.owner r.start r.last) ∧ Held good l := by
  simp [Held]

theorem held_insertPiece {good : Nat → Nat → Nat → Prop} (shrinks : Shrinks good) {p : AsRange}
    (hp : p.start ≤ p.last) (hlast : p.last + 1 < paddrs) (hgood : good p.owner p.start p.last)
    {l : List AsRange} (h : Held good l) : Held good (insertPiece p l) := by
  have hmod : (p.last + 1) % paddrs = p.last + 1 := Nat.mod_eq_of_lt hlast
  induction l with
  | nil => exact held_cons.mpr ⟨fun _ => hgood, h⟩
  | cons curr rest ih =>
    obtain ⟨hcurr, hrest⟩ := held_cons.mp h
    rw [insertPiece, hmod]
    split
    · next hstart =>
      have hwhole := hcurr (by omega)
      split
      · next heq =>
        refine held_cons.mpr ⟨?_, hrest⟩
        intro _
        dsimp only
        rw [heq.1, heq.2]
        exact hgood
      · split
        · refine held_cons.mpr ⟨fun _ => hgood, held_cons.mpr ⟨?_, hrest⟩⟩
          intro _
          exact shrinks _ _ _ _ _ hwhole (by dsimp only; omega) (Nat.le_refl _)
        · refine held_cons.mpr ⟨?_, held_cons.mpr ⟨fun _ => hgood, ?_⟩⟩
          · intro _
            exact shrinks _ _ _ _ _ hwhole (Nat.le_refl _) (by dsimp only; omega)
          · split
            · refine held_cons.mpr ⟨?_, hrest⟩
              intro _
              exact shrinks _ _ _ _ _ hwhole (by dsimp only; omega) (Nat.le_refl _)
            · exact hrest
    · exact held_cons.mpr ⟨hcurr, ih hrest⟩

/-! ## Nested containers

Where of two entries of the container that share an address the later one lies in the earlier
one, each address goes to the last entry that has it. -/

section Painted
variable (has : Nat → Nat → Prop) (start last : Nat)

/-- The last of the first `i` entries that have the address. -/
def Latest (i x o : Nat) : Prop := o < i ∧ has o x ∧ ∀ o', o < o' → o' < i → ¬ has o' x

/-- The ranges after the first `i` entries. A range ends where its owner does, or where a later
entry begins. -/
structure Painted (i : Nat) (l : List AsRange) : Prop where
  nonempty : ∀ r ∈ l, r.start ≤ r.last
  inside : ∀ r ∈ l, start ≤ r.start ∧ r.last ≤ last
  latest : ∀ r ∈ l, ∀ x, x ∈ r.cells → Latest has i x r.owner
  maximal : ∀ r ∈ l, r.last < last → ¬ Latest has i (r.last + 1) r.owner
  complete : ∀ x o : Nat, start ≤ x → x ≤ last → Latest has i x o → ∃ r ∈ l, x ∈ r.cells
  disjoint : l.Pairwise fun a b => Disjoint a.cells b.cells

variable {has start last}

theorem Latest.succ {i x o : Nat} (h : Latest has i x o) (hnot : ¬ has i x) :
    Latest has (i + 1) x o := by
  obtain ⟨hless, hhas, hlater⟩ := h
  refine ⟨by omega, hhas, ?_⟩
  intro o' ho hi
  rcases Nat.lt_or_eq_of_le (Nat.le_of_lt_succ hi) with hlt | rfl
  · exact hlater o' ho hlt
  · exact hnot

theorem Latest.pred {i x o : Nat} (h : Latest has (i + 1) x o) (hne : o ≠ i) :
    Latest has i x o ∧ ¬ has i x := by
  obtain ⟨hless, hhas, hlater⟩ := h
  have ho : o < i := by omega
  exact ⟨⟨ho, hhas, fun o' h₁ h₂ => hlater o' h₁ (by omega)⟩, hlater i ho (Nat.lt_succ_self i)⟩

theorem latest_self {i x : Nat} (h : has i x) : Latest has (i + 1) x i :=
  ⟨Nat.lt_succ_self i, h, fun _ h₁ h₂ => absurd h₁ (by omega)⟩

theorem Latest.unique {i x o o' : Nat} (h : Latest has i x o) (h' : Latest has i x o') :
    o = o' := by
  rcases Nat.lt_trichotomy o o' with hlt | rfl | hlt
  · exact absurd h'.2.1 (h.2.2 o' hlt h'.1)
  · rfl
  · exact absurd h.2.1 (h'.2.2 o hlt h.1)

/-- Of the entries that have an address one is the last. -/
theorem exists_latest {i x o : Nat} (ho : o < i) (h : has o x) : ∃ o', Latest has i x o' := by
  induction i with
  | zero => exact absurd ho (Nat.not_lt_zero o)
  | succ i ih =>
    by_cases hi : has i x
    · exact ⟨i, latest_self hi⟩
    · have hne : o ≠ i := by
        rintro rfl
        exact hi h
      obtain ⟨o', ho'⟩ := ih (by omega)
      exact ⟨o', ho'.succ hi⟩

theorem painted_nil : Painted has start last 0 [] :=
  ⟨by simp, by simp, by simp, by simp, fun _ _ _ _ h => absurd h.1 (Nat.not_lt_zero _), .nil⟩

/-- An entry that has nothing of the range changes nothing. -/
theorem Painted.skip {i : Nat} {l : List AsRange} (h : Painted has start last i l)
    (hnot : ∀ x, start ≤ x → x ≤ last → ¬ has i x) : Painted has start last (i + 1) l := by
  refine ⟨h.nonempty, h.inside, ?_, ?_, ?_, h.disjoint⟩
  · intro r hr x hx
    obtain ⟨hstart, hlast⟩ := h.inside r hr
    have hx' := hx
    rw [AsRange.cells, mem_range] at hx'
    exact (h.latest r hr x hx).succ (hnot x (by omega) (by omega))
  · intro r hr hend hlatest
    obtain ⟨hstart, _⟩ := h.inside r hr
    have hne := h.nonempty r hr
    have howner := (h.latest r hr r.start ⟨Nat.le_refl _, by omega⟩).1
    exact h.maximal r hr hend (hlatest.pred (by omega)).1
  · intro x o hstart hlast hlatest
    have hne : o ≠ i := by
      rintro rfl
      exact hnot x hstart hlast hlatest.2.1
    exact h.complete x o hstart hlast (hlatest.pred hne).1

/-- The range that has the first address of a piece has all of it. -/
theorem Painted.whole {i : Nat} {l : List AsRange} (h : Painted has start last i l)
    {p curr : AsRange} (hcurr : curr ∈ l) (hle : p.start ≤ p.last) (hend : p.last ≤ last)
    (hnested : ∀ o < i, ∀ x ∈ p.cells, has o x → ∀ y ∈ p.cells, has o y)
    (hstart : curr.start ≤ p.start) (hlast : p.start ≤ curr.last) : p.last ≤ curr.last := by
  by_contra hmore
  have hfirst : Latest has i p.start curr.owner :=
    h.latest curr hcurr p.start ⟨hstart, by omega⟩
  have hin : p.start ∈ p.cells := ⟨Nat.le_refl _, by omega⟩
  have hnext : curr.last + 1 ∈ p.cells := ⟨by omega, by omega⟩
  have howner : has curr.owner (curr.last + 1) :=
    hnested _ hfirst.1 _ hin hfirst.2.1 _ hnext
  apply h.maximal curr hcurr (by omega)
  refine ⟨hfirst.1, howner, ?_⟩
  intro o' ho hi hhas
  exact hfirst.2.2 o' ho hi (hnested o' hi _ hnext hhas _ hin)

end Painted

/-- A range that has the first address of a piece is replaced by these. -/
def splitRange (p curr : AsRange) : List AsRange :=
  if curr.start = p.start ∧ curr.last = p.last then [{ curr with owner := p.owner }]
  else if curr.start = p.start then [p, { curr with start := (p.last + 1) % paddrs }]
  else
    { curr with last := p.start - 1 } :: p ::
      if curr.last ≠ p.last then [⟨(p.last + 1) % paddrs, curr.last, curr.owner⟩] else []

theorem insertPiece_cases (p : AsRange) (l : List AsRange) :
    ((∀ r ∈ l, ¬ (r.start ≤ p.start ∧ r.last ≥ p.start)) ∧ insertPiece p l = l ++ [p]) ∨
    ∃ before curr after, l = before ++ curr :: after ∧ curr.start ≤ p.start ∧
      p.start ≤ curr.last ∧ insertPiece p l = before ++ (splitRange p curr ++ after) := by
  induction l with
  | nil => exact Or.inl ⟨fun _ hr => absurd hr List.not_mem_nil, rfl⟩
  | cons curr rest ih =>
    rw [insertPiece]
    split
    · next hin =>
      refine Or.inr ⟨[], curr, rest, rfl, hin.1, hin.2, ?_⟩
      rw [splitRange, List.nil_append]
      split
      · rfl
      · split
        · rfl
        · split <;> rfl
    · next hout =>
      rcases ih with ⟨hnone, hend⟩ | ⟨before, c, after, hl, hstart, hlast, hend⟩
      · refine Or.inl ⟨?_, by rw [hend]; rfl⟩
        intro r hr
        rcases List.mem_cons.mp hr with rfl | hr
        · exact hout
        · exact hnone r hr
      · refine Or.inr ⟨curr :: before, c, after, by rw [hl]; rfl, hstart, hlast, ?_⟩
        rw [hend]
        rfl

/-- The piece in the middle and what is left in front of it and behind it. -/
theorem mem_splitRange {p curr t : AsRange}
    (hstart : curr.start ≤ p.start) (hlast : p.last ≤ curr.last) (hcurr : curr.last < paddrs) :
    t ∈ splitRange p curr ↔ t = p ∨
      (curr.start < p.start ∧ t = ⟨curr.start, p.start - 1, curr.owner⟩) ∨
      (p.last < curr.last ∧ t = ⟨p.last + 1, curr.last, curr.owner⟩) := by
  have hself : curr.start = p.start → curr.last = p.last → { curr with owner := p.owner } = p := by
    intro h₁ h₂
    rw [h₁, h₂]
  unfold splitRange
  split
  · next heq =>
    rw [hself heq.1 heq.2, List.mem_singleton]
    constructor
    · exact Or.inl
    · rintro (h | ⟨h, _⟩ | ⟨h, _⟩)
      · exact h
      · omega
      · omega
  · next hne =>
    split
    · next heq =>
      have hmore : p.last < curr.last := by omega
      rw [Nat.mod_eq_of_lt (by omega), List.mem_cons, List.mem_singleton]
      constructor
      · rintro (h | h)
        · exact Or.inl h
        · exact Or.inr (Or.inr ⟨hmore, h⟩)
      · rintro (h | ⟨h, _⟩ | ⟨_, h⟩)
        · exact Or.inl h
        · omega
        · exact Or.inr h
    · next hfront =>
      have hless : curr.start < p.start := by omega
      rw [List.mem_cons, List.mem_cons]
      split
      · next hmore =>
        rw [Nat.mod_eq_of_lt (by omega), List.mem_singleton]
        constructor
        · rintro (h | h | h)
          · exact Or.inr (Or.inl ⟨hless, h⟩)
          · exact Or.inl h
          · exact Or.inr (Or.inr ⟨by omega, h⟩)
        · rintro (h | ⟨_, h⟩ | ⟨_, h⟩)
          · exact Or.inr (Or.inl h)
          · exact Or.inl h
          · exact Or.inr (Or.inr h)
      · next hend =>
        constructor
        · rintro (h | h | h)
          · exact Or.inr (Or.inl ⟨hless, h⟩)
          · exact Or.inl h
          · exact absurd h List.not_mem_nil
        · rintro (h | ⟨_, h⟩ | ⟨h, _⟩)
          · exact Or.inr (Or.inl h)
          · exact Or.inl h
          · omega

theorem disjoint_splitRange {p curr : AsRange} (hp : p.start ≤ p.last)
    (hstart : curr.start ≤ p.start) (hlast : p.last ≤ curr.last) (hcurr : curr.last < paddrs) :
    (splitRange p curr).Pairwise fun a b => Disjoint a.cells b.cells := by
  have hdisjoint : ∀ a b : AsRange, a.last < b.start ∨ b.last < a.start →
      Disjoint a.cells b.cells := by
    intro a b h
    rw [Set.disjoint_left]
    intro x hx hx'
    rw [AsRange.cells, mem_range] at hx hx'
    omega
  unfold splitRange
  split
  · exact List.pairwise_singleton _ _
  · next hne =>
    split
    · next heq =>
      rw [Nat.mod_eq_of_lt (by omega), List.pairwise_pair]
      exact hdisjoint _ _ (Or.inl (Nat.lt_succ_self _))
    · next hfront =>
      split
      · next hmore =>
        rw [Nat.mod_eq_of_lt (by omega), List.pairwise_cons, List.pairwise_pair]
        refine ⟨?_, hdisjoint _ _ (Or.inl (Nat.lt_succ_self _))⟩
        intro t ht
        apply hdisjoint
        rcases List.mem_cons.mp ht with rfl | ht
        · dsimp only
          omega
        · rw [List.mem_singleton.mp ht]
          dsimp only
          omega
      · rw [List.pairwise_pair]
        apply hdisjoint
        dsimp only
        omega

section Insert
variable {has : Nat → Nat → Prop} {start last i : Nat} {l : List AsRange} {p : AsRange}

/-- The part of the range that the entry `i` has; the earlier entries have all of it or
nothing. -/
structure PieceOf (has : Nat → Nat → Prop) (start last i : Nat) (p : AsRange) : Prop where
  owner : p.owner = i
  nonempty : p.start ≤ p.last
  cells : ∀ x, x ∈ p.cells ↔ start ≤ x ∧ x ≤ last ∧ has i x
  nested : ∀ o < i, ∀ x ∈ p.cells, has o x → ∀ y ∈ p.cells, has o y

theorem PieceOf.first (hp : PieceOf has start last i p) : p.start ∈ p.cells :=
  ⟨Nat.le_refl _, Nat.lt_succ_of_le hp.nonempty⟩

theorem PieceOf.inside (hp : PieceOf has start last i p) : start ≤ p.start ∧ p.last ≤ last :=
  ⟨((hp.cells _).mp hp.first).1, ((hp.cells p.last).mp ⟨hp.nonempty, Nat.lt_succ_self _⟩).2.1⟩

theorem PieceOf.latest (hp : PieceOf has start last i p) {x : Nat} (hx : x ∈ p.cells) :
    Latest has (i + 1) x p.owner := by
  rw [hp.owner]
  exact latest_self ((hp.cells x).mp hx).2.2

theorem PieceOf.maximal (hp : PieceOf has start last i p) (hend : p.last < last) :
    ¬ Latest has (i + 1) (p.last + 1) p.owner := by
  intro hl
  rw [hp.owner] at hl
  have hle := hp.nonempty
  have hstart := hp.inside.1
  have hin := (hp.cells (p.last + 1)).mpr ⟨by omega, by omega, hl.2.1⟩
  rw [AsRange.cells, mem_range] at hin
  omega

theorem Painted.owner_lt (h : Painted has start last i l) {r : AsRange} (hr : r ∈ l) :
    r.owner < i :=
  (h.latest r hr r.start ⟨Nat.le_refl _, Nat.lt_succ_of_le (h.nonempty r hr)⟩).1

/-- Outside of the piece a range keeps its owner. -/
theorem Painted.keep (h : Painted has start last i l) (hp : PieceOf has start last i p)
    {r : AsRange} (hr : r ∈ l) {x : Nat} (hx : x ∈ r.cells) (hout : x ∉ p.cells) :
    Latest has (i + 1) x r.owner := by
  obtain ⟨h₁, h₂⟩ := h.inside r hr
  apply (h.latest r hr x hx).succ
  intro hhas
  rw [AsRange.cells, mem_range] at hx
  exact hout ((hp.cells x).mpr ⟨by omega, by omega, hhas⟩)

theorem Painted.keep_maximal (h : Painted has start last i l) {r : AsRange} (hr : r ∈ l)
    (hend : r.last < last) : ¬ Latest has (i + 1) (r.last + 1) r.owner := by
  intro hl
  exact h.maximal r hr hend (hl.pred (Nat.ne_of_lt (h.owner_lt hr))).1

theorem Painted.keep_complete (h : Painted has start last i l) (hp : PieceOf has start last i p)
    {x o : Nat} (h₁ : start ≤ x) (h₂ : x ≤ last) (hl : Latest has (i + 1) x o) :
    x ∈ p.cells ∨ x ∉ p.cells ∧ ∃ r ∈ l, x ∈ r.cells := by
  by_cases hx : x ∈ p.cells
  · exact Or.inl hx
  · have hne : o ≠ i := by
      rintro rfl
      exact hx ((hp.cells x).mpr ⟨h₁, h₂, hl.2.1⟩)
    exact Or.inr ⟨hx, h.complete x o h₁ h₂ (hl.pred hne).1⟩

/-- No range has the first address of the piece, so no earlier entry has any address of it. -/
theorem Painted.append (h : Painted has start last i l) (hp : PieceOf has start last i p)
    (hnone : ∀ r ∈ l, ¬ (r.start ≤ p.start ∧ r.last ≥ p.start)) :
    Painted has start last (i + 1) (l ++ [p]) := by
  have hle := hp.nonempty
  obtain ⟨hstart, hend⟩ := hp.inside
  have hfresh : ∀ r ∈ l, ∀ x ∈ r.cells, x ∉ p.cells := by
    intro r hr x hx hin
    have hl := h.latest r hr x hx
    obtain ⟨o, ho⟩ := exists_latest hl.1 (hp.nested _ hl.1 x hin hl.2.1 _ hp.first)
    obtain ⟨r', hr', hx'⟩ := h.complete p.start o hstart (by omega) ho
    exact hnone r' hr' ⟨hx'.1, Nat.le_of_lt_succ hx'.2⟩
  have hall : ∀ {P : AsRange → Prop}, (∀ r ∈ l, P r) → P p → ∀ r ∈ l ++ [p], P r := by
    intro P hl hlast r hr
    rcases List.mem_append.mp hr with hr | hr
    · exact hl r hr
    · rw [List.mem_singleton.mp hr]
      exact hlast
  constructor
  · exact hall h.nonempty hle
  · exact hall h.inside hp.inside
  · exact hall (fun r hr x hx => h.keep hp hr hx (hfresh r hr x hx)) fun x hx => hp.latest hx
  · exact hall (fun r hr => h.keep_maximal hr) hp.maximal
  · intro x o h₁ h₂ hl
    rcases h.keep_complete hp h₁ h₂ hl with hx | ⟨_, r, hr, hx⟩
    · exact ⟨p, List.mem_append_right _ (.head _), hx⟩
    · exact ⟨r, List.mem_append_left _ hr, hx⟩
  · rw [List.pairwise_append]
    refine ⟨h.disjoint, List.pairwise_singleton _ _, ?_⟩
    intro r hr t ht
    rw [List.mem_singleton.mp ht]
    exact Set.disjoint_left.mpr (hfresh r hr)

section Split
variable {curr : AsRange} {before after : List AsRange}

/-- What holds of the other ranges, of the piece and of the two parts holds of all ranges. -/
theorem forall_split {P : AsRange → Prop} (hstart : curr.start ≤ p.start)
    (hlast : p.last ≤ curr.last) (hcurr : curr.last < paddrs)
    (hothers : ∀ r, r ∈ before ∨ r ∈ after → P r) (hpiece : P p)
    (hfront : curr.start < p.start → P ⟨curr.start, p.start - 1, curr.owner⟩)
    (hback : p.last < curr.last → P ⟨p.last + 1, curr.last, curr.owner⟩) :
    ∀ r ∈ before ++ (splitRange p curr ++ after), P r := by
  intro r hr
  rw [List.mem_append, List.mem_append, mem_splitRange hstart hlast hcurr] at hr
  rcases hr with hr | (rfl | ⟨hless, rfl⟩ | ⟨hmore, rfl⟩) | hr
  · exact hothers r (Or.inl hr)
  · exact hpiece
  · exact hfront hless
  · exact hback hmore
  · exact hothers r (Or.inr hr)

theorem cells_splitRange (hstart : curr.start ≤ p.start) (hlast : p.last ≤ curr.last)
    (hcurr : curr.last < paddrs) (hle : p.start ≤ p.last) (x : Nat) :
    (∃ t ∈ splitRange p curr, x ∈ t.cells) ↔ x ∈ curr.cells := by
  simp only [AsRange.cells, mem_range]
  constructor
  · rintro ⟨t, ht, hx⟩
    rcases (mem_splitRange hstart hlast hcurr).mp ht with rfl | ⟨hless, rfl⟩ | ⟨hmore, rfl⟩
    · omega
    · dsimp only at hx
      omega
    · dsimp only at hx
      omega
  · intro hx
    have hmem := fun t => (@mem_splitRange p curr t hstart hlast hcurr).mpr
    rcases Nat.lt_or_ge x p.start with hless | hge
    · refine ⟨_, hmem _ (Or.inr (Or.inl ⟨by omega, rfl⟩)), ?_⟩
      dsimp only
      omega
    · rcases Nat.lt_or_ge p.last x with hmore | hin
      · refine ⟨_, hmem _ (Or.inr (Or.inr ⟨by omega, rfl⟩)), ?_⟩
        dsimp only
        omega
      · exact ⟨p, hmem _ (Or.inl rfl), hge, Nat.lt_succ_of_le hin⟩

theorem Painted.split (h : Painted has start last i (before ++ curr :: after))
    (hp : PieceOf has start last i p) (hlast : last < paddrs) (hs : curr.start ≤ p.start)
    (he : p.start ≤ curr.last) :
    Painted has start last (i + 1) (before ++ (splitRange p curr ++ after)) := by
  have hle := hp.nonempty
  have hcurr : curr ∈ before ++ curr :: after := List.mem_append_right _ (.head _)
  obtain ⟨hcs, hce⟩ := h.inside curr hcurr
  have hwhole : p.last ≤ curr.last := h.whole hcurr hle hp.inside.2 hp.nested hs he
  have hlimit : curr.last < paddrs := by omega
  have hall := fun {P} => @forall_split p curr before after P hs hwhole hlimit
  have hsplit := @cells_splitRange p curr hs hwhole hlimit hle
  obtain ⟨hdbefore, hdrest, hdcross⟩ := List.pairwise_append.mp h.disjoint
  obtain ⟨hdcurr, hdafter⟩ := List.pairwise_cons.mp hdrest
  have hmem : ∀ r, r ∈ before ∨ r ∈ after → r ∈ before ++ curr :: after := by
    intro r hr
    rcases hr with hr | hr
    · exact List.mem_append_left _ hr
    · exact List.mem_append_right _ (.tail _ hr)
  have haway : ∀ r, r ∈ before ∨ r ∈ after → ∀ x ∈ r.cells, x ∉ curr.cells := by
    intro r hr x hx hx'
    rcases hr with hr | hr
    · exact Set.disjoint_left.mp (hdcross r hr curr (.head _)) hx hx'
    · exact Set.disjoint_left.mp (hdcurr r hr) hx' hx
  have hsub : ∀ x ∈ p.cells, x ∈ curr.cells :=
    fun x hx => ⟨Nat.le_trans hs hx.1, Nat.lt_of_lt_of_le hx.2 (Nat.succ_le_succ hwhole)⟩
  constructor
  · apply hall (fun r hr => h.nonempty r (hmem r hr)) hle
    · intro hless
      dsimp only
      omega
    · exact fun hmore => hmore
  · apply hall (fun r hr => h.inside r (hmem r hr)) hp.inside
    · intro hless
      exact ⟨hcs, by dsimp only; omega⟩
    · intro hmore
      exact ⟨by dsimp only; omega, hce⟩
  · apply hall
    · intro r hr x hx
      exact h.keep hp (hmem r hr) hx fun hin => haway r hr x hx (hsub x hin)
    · exact fun x hx => hp.latest hx
    · intro hless x hx
      rw [AsRange.cells, mem_range] at hx
      dsimp only at hx
      refine @Painted.keep has start last i _ p h hp curr hcurr x ⟨hx.1, by omega⟩ ?_
      intro hin
      rw [AsRange.cells, mem_range] at hin
      omega
    · intro hmore x hx
      rw [AsRange.cells, mem_range] at hx
      dsimp only at hx
      refine @Painted.keep has start last i _ p h hp curr hcurr x ⟨by omega, hx.2⟩ ?_
      intro hin
      rw [AsRange.cells, mem_range] at hin
      omega
  · apply hall (fun r hr => h.keep_maximal (hmem r hr)) hp.maximal
    · -- behind the front part comes the piece
      intro hless _ hl
      have hstop : p.start - 1 + 1 = p.start := by omega
      dsimp only at hl
      rw [hstop] at hl
      have hsame := hl.unique (hp.latest hp.first)
      rw [hp.owner] at hsame
      exact absurd (h.owner_lt hcurr) (by omega)
    · intro _ hend
      exact @Painted.keep_maximal has start last i _ h curr hcurr hend
  · intro x o h₁ h₂ hl
    rcases h.keep_complete hp h₁ h₂ hl with hx | ⟨_, r, hr, hx⟩
    · obtain ⟨t, ht, hx⟩ := (hsplit x).mpr (hsub x hx)
      exact ⟨t, List.mem_append_right _ (List.mem_append_left _ ht), hx⟩
    · rcases List.mem_append.mp hr with hr | hr
      · exact ⟨r, List.mem_append_left _ hr, hx⟩
      · rcases List.mem_cons.mp hr with rfl | hr
        · obtain ⟨t, ht, hx⟩ := (hsplit x).mpr hx
          exact ⟨t, List.mem_append_right _ (List.mem_append_left _ ht), hx⟩
        · exact ⟨r, List.mem_append_right _ (List.mem_append_right _ hr), hx⟩
  · have hpart : ∀ t ∈ splitRange p curr, ∀ x ∈ t.cells, x ∈ curr.cells :=
      fun t ht x hx => (hsplit x).mp ⟨t, ht, hx⟩
    rw [List.pairwise_append, List.pairwise_append]
    refine ⟨hdbefore, ⟨disjoint_splitRange hle hs hwhole hlimit, hdafter, ?_⟩, ?_⟩
    · intro t ht r hr
      exact Set.disjoint_left.mpr fun x hx hx' => haway r (Or.inr hr) x hx' (hpart t ht x hx)
    · intro r hr t ht
      rcases List.mem_append.mp ht with ht | ht
      · exact Set.disjoint_left.mpr fun x hx hx' => haway r (Or.inl hr) x hx (hpart t ht x hx')
      · exact hdcross r hr t (.tail _ ht)

end Split

theorem Painted.insert (h : Painted has start last i l) (hlast : last < paddrs)
    (hp : PieceOf has start last i p) : Painted has start last (i + 1) (insertPiece p l) := by
  rcases insertPiece_cases p l with ⟨hnone, heq⟩ | ⟨before, curr, after, rfl, hs, he, heq⟩
  · rw [heq]
    exact h.append hp hnone
  · rw [heq]
    exact h.split hp hlast hs he

end Insert

end FridaCI.Startup
