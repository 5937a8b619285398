import Mathlib.Data.List.Nodup

/-!
# Strings of the system page

startup/lib/strings.c: add_string, which keeps each string once, and __hwi_find_string in
hwi_alloc.c. That the system page may be full is left out.
-/

namespace FridaCI.Startup

set_option autoImplicit false

def nul : Char := Char.ofNat 0

/-- A string in C, without the character that ends it. -/
def IsString (s : List Char) : Prop := nul ∉ s

instance (s : List Char) : Decidable (IsString s) := inferInstanceAs (Decidable (nul ∉ s))

/-- What strlen and strcmp see at an offset. -/
def findString (p : List Char) (off : Nat) : List Char := (p.drop off).takeWhile (· ≠ nul)

/-- grow_syspage_section makes a section longer by whole words of 64 bits, all zeros. -/
def growSection (p : List Char) (add : Nat) : List Char :=
  p ++ List.replicate ((add + 7) / 8 * 8) nul

/-- The offset of the string, or of the empty string behind the last one. -/
def searchString (p name : List Char) : Nat → Nat → Nat × Bool
  | 0, i => (i, false)
  | fuel + 1, i =>
    if findString p i = [] then (i, false)
    else if findString p i = name then (i, true)
    else searchString p name fuel (i + (findString p i).length + 1)

def addString (p name : List Char) : List Char × Nat :=
  match searchString p name p.length 0 with
  | (i, true) => (p, i)
  | (i, false) =>
    let len := name.length + 2
    let spare := p.length - i
    let p := if len > spare then growSection p (len - spare) else p
    (p.take i ++ (name ++ [nul]) ++ p.drop (i + (name.length + 1)), i)

/-! ## Packed strings -/

def pack (l : List (List Char)) : List Char := l.flatMap (· ++ [nul])

/-- The strings one behind the other, and zeros behind them. -/
structure Packed (l : List (List Char)) (p : List Char) : Prop where
  strings : ∀ s ∈ l, s ≠ [] ∧ IsString s
  nodup : l.Nodup
  eq : ∃ zeros, 0 < zeros ∧ p = pack l ++ List.replicate zeros nul

theorem pack_append (l l' : List (List Char)) : pack (l ++ l') = pack l ++ pack l' :=
  List.flatMap_append

theorem length_le_pack (l : List (List Char)) : l.length ≤ (pack l).length := by
  induction l with
  | nil => exact Nat.le_refl 0
  | cons s l ih =>
    have hcons : (pack (s :: l)).length = s.length + 1 + (pack l).length := by
      rw [pack, List.flatMap_cons, List.length_append, List.length_append]
      rfl
    rw [hcons, List.length_cons]
    omega

theorem findString_append {before s rest : List Char} (hs : IsString s) :
    findString (before ++ (s ++ nul :: rest)) before.length = s := by
  rw [findString, List.drop_left]
  induction s with
  | nil => exact List.takeWhile_cons_of_neg (by simp)
  | cons c s ih =>
    have hc : c ≠ nul := fun h => hs (h ▸ List.mem_cons_self)
    have hrest : IsString s := fun h => hs (List.mem_cons_of_mem c h)
    rw [List.cons_append, List.takeWhile_cons_of_pos (by simpa using hc), ih hrest]

theorem Packed.replicate {l : List (List Char)} {p : List Char} (h : Packed l p) :
    ∃ zeros, p = pack l ++ nul :: List.replicate zeros nul := by
  obtain ⟨zeros, hpos, hp⟩ := h.eq
  obtain ⟨zeros, rfl⟩ := Nat.exists_eq_add_of_le' hpos
  exact ⟨zeros, hp⟩

theorem findString_pack {l : List (List Char)} {p : List Char} (h : Packed l p)
    {before rest : List (List Char)} {s : List Char} (hl : l = before ++ s :: rest) :
    findString p (pack before).length = s := by
  obtain ⟨zeros, _, hp⟩ := h.eq
  have hs := (h.strings s (by simp [hl])).2
  have hpack : pack l = pack before ++ (s ++ nul :: pack rest) := by
    rw [hl, pack_append]
    simp [pack]
  rw [hp, hpack, List.append_assoc, List.append_assoc, List.cons_append]
  exact findString_append hs

theorem findString_end {l : List (List Char)} {p : List Char} (h : Packed l p) :
    findString p (pack l).length = [] := by
  obtain ⟨zeros, hp⟩ := h.replicate
  rw [hp]
  exact @findString_append (pack l) [] _ (List.not_mem_nil)

/-- A string of the list and its offset. -/
def StoredAt (l : List (List Char)) (s : List Char) (off : Nat) : Prop :=
  ∃ before rest, l = before ++ s :: rest ∧ off = (pack before).length

theorem StoredAt.append {l : List (List Char)} {s : List Char} {off : Nat} (h : StoredAt l s off)
    (l' : List (List Char)) : StoredAt (l ++ l') s off := by
  obtain ⟨before, rest, hl, hoff⟩ := h
  exact ⟨before, rest ++ l', by simp [hl], hoff⟩

theorem StoredAt.findString {l : List (List Char)} {p s : List Char} {off : Nat}
    (h : StoredAt l s off) (hp : Packed l p) : findString p off = s := by
  obtain ⟨before, rest, hl, rfl⟩ := h
  exact findString_pack hp hl

theorem StoredAt.unique {l : List (List Char)} {s : List Char} {off off' : Nat} (hl : l.Nodup)
    (h : StoredAt l s off) (h' : StoredAt l s off') : off = off' := by
  obtain ⟨before, rest, hl₁, rfl⟩ := h
  obtain ⟨before', rest', hl₂, rfl⟩ := h'
  have hlength : before.length = before'.length := by
    have h₁ : l[before.length]? = some s := by simp [hl₁]
    have h₂ : l[before'.length]? = some s := by simp [hl₂]
    have hlt : before.length < l.length := by simp [hl₁]
    have hlt' : before'.length < l.length := by simp [hl₂]
    rw [List.getElem?_eq_getElem hlt] at h₁
    rw [List.getElem?_eq_getElem hlt'] at h₂
    exact (hl.getElem_inj_iff).mp ((Option.some.inj h₁).trans (Option.some.inj h₂).symm)
  rw [hl₁] at hl₂
  rw [(List.append_inj hl₂ hlength).1]

/-! ## add_string -/

theorem searchString_spec {l : List (List Char)} {p : List Char} (hp : Packed l p)
    (name : List Char) {before rest : List (List Char)} (hl : l = before ++ rest) {fuel : Nat}
    (hfuel : rest.length < fuel) :
    (∃ off, searchString p name fuel (pack before).length = (off, true) ∧ StoredAt l name off) ∨
    (name ∉ rest ∧ searchString p name fuel (pack before).length = ((pack l).length, false)) := by
  induction rest generalizing before fuel with
  | nil =>
    obtain ⟨fuel, rfl⟩ := Nat.exists_eq_add_of_le' hfuel
    rw [List.append_nil] at hl
    subst hl
    refine Or.inr ⟨List.not_mem_nil, ?_⟩
    exact if_pos (findString_end hp)
  | cons s rest ih =>
    obtain ⟨fuel, rfl⟩ := Nat.exists_eq_add_of_le' (Nat.zero_lt_of_lt hfuel)
    have hs := findString_pack hp hl
    have hne : s ≠ [] := (hp.strings s (by simp [hl])).1
    rw [searchString, hs, if_neg hne]
    by_cases heq : s = name
    · subst heq
      rw [if_pos rfl]
      exact Or.inl ⟨_, rfl, before, rest, hl, rfl⟩
    · have hnext : (pack before).length + s.length + 1 = (pack (before ++ [s])).length := by
        simp [pack, Nat.add_assoc]
      rw [if_neg heq, hnext]
      have hrec := @ih (before ++ [s]) (by simp [hl]) fuel (by simpa using hfuel)
      rcases hrec with hfound | ⟨hnot, hend⟩
      · exact Or.inl hfound
      · refine Or.inr ⟨?_, hend⟩
        rw [List.mem_cons, not_or]
        exact ⟨Ne.symm heq, hnot⟩

theorem addString_spec {l : List (List Char)} {p : List Char} (hp : Packed l p) {name : List Char}
    (hname : name ≠ [] ∧ IsString name) :
    ∃ l' p' off, addString p name = (p', off) ∧ Packed (l ++ l') p' ∧
      StoredAt (l ++ l') name off := by
  obtain ⟨zeros, hpos, heq⟩ := hp.eq
  have hlength : l.length < p.length := by
    have hle := length_le_pack l
    rw [heq, List.length_append, List.length_replicate]
    omega
  unfold addString
  rcases @searchString_spec l p hp name [] l rfl p.length hlength with
    ⟨off, hfound, hplaced⟩ | ⟨hnot, hend⟩
  · refine ⟨[], p, off, ?_, by simpa using hp, by simpa using hplaced⟩
    change searchString p name p.length 0 = _ at hfound
    rw [hfound]
  · change searchString p name p.length 0 = _ at hend
    rw [hend]
    refine ⟨[name], _, _, rfl, ⟨?_, ?_, ?_⟩, l, [], rfl, rfl⟩
    · intro s hs
      rcases List.mem_append.mp hs with hs | hs
      · exact hp.strings s hs
      · rw [List.mem_singleton.mp hs]
        exact hname
    · rw [List.nodup_append]
      refine ⟨hp.nodup, List.nodup_singleton name, ?_⟩
      intro a ha b hb
      rw [List.mem_singleton.mp hb]
      intro h
      exact hnot (h ▸ ha)
    · obtain ⟨room, hroom, hgrown⟩ : ∃ room, name.length + 2 ≤ room ∧
          (if name.length + 2 > p.length - (pack l).length then
            growSection p (name.length + 2 - (p.length - (pack l).length)) else p) =
          pack l ++ List.replicate room nul := by
        have hspare : p.length - (pack l).length = zeros := by
          rw [heq, List.length_append, List.length_replicate, Nat.add_sub_cancel_left]
        rw [hspare]
        split
        · refine ⟨zeros + (name.length + 2 - zeros + 7) / 8 * 8, by omega, ?_⟩
          rw [growSection, heq, List.append_assoc, List.replicate_append_replicate]
        · exact ⟨zeros, by omega, heq⟩
      refine ⟨room - (name.length + 1), by omega, ?_⟩
      rw [hgrown, List.take_left, List.drop_append, List.drop_replicate, pack_append]
      simp [pack]

/-! ## All strings of a run -/

def addStrings : List Char → List (List Char) → List Char × List Nat
  | p, [] => (p, [])
  | p, name :: names =>
    let (p, off) := addString p name
    let (p, offs) := addStrings p names
    (p, off :: offs)

/-- init_syspage_memory makes room for one character. -/
def noStrings : List Char := growSection [] 1

theorem packed_noStrings : Packed [] noStrings :=
  ⟨fun _ hs => absurd hs List.not_mem_nil, List.nodup_nil, 8, Nat.succ_pos 7, rfl⟩

theorem addStrings_spec {names : List (List Char)}
    (hnames : ∀ name ∈ names, name ≠ [] ∧ IsString name) {l : List (List Char)} {p : List Char}
    (hp : Packed l p) :
    ∃ l', Packed (l ++ l') (addStrings p names).1 ∧
      List.Forall₂ (StoredAt (l ++ l')) names (addStrings p names).2 := by
  induction names generalizing l p with
  | nil => exact ⟨[], by simpa [addStrings] using hp, .nil⟩
  | cons name names ih =>
    obtain ⟨l₁, p₁, off, hadd, hp₁, hstored⟩ := addString_spec hp (hnames name (.head _))
    obtain ⟨l₂, hp₂, hrest⟩ := ih (fun s hs => hnames s (.tail _ hs)) hp₁
    rw [addStrings, hadd]
    rw [List.append_assoc] at hp₂ hrest
    have hfirst := hstored.append l₂
    rw [List.append_assoc] at hfirst
    exact ⟨l₁ ++ l₂, hp₂, .cons hfirst hrest⟩

theorem map_findString {l names : List (List Char)} {p : List Char} {offs : List Nat}
    (hp : Packed l p) (h : List.Forall₂ (StoredAt l) names offs) :
    offs.map (findString p) = names := by
  induction h with
  | nil => rfl
  | cons hfirst _ ih => rw [List.map_cons, ih, hfirst.findString hp]

/-- An offset that add_string has returned reads its string for good, and two are the same if and
only if their strings are. The empty string has no place of its own. -/
theorem addStrings_interned {names : List (List Char)}
    (hnames : ∀ name ∈ names, name ≠ [] ∧ IsString name) {p : List Char} {offs : List Nat}
    (h : addStrings noStrings names = (p, offs)) :
    offs.map (findString p) = names ∧
      ∀ x ∈ names.zip offs, ∀ y ∈ names.zip offs, x.1 = y.1 ↔ x.2 = y.2 := by
  obtain ⟨l, hp, hall⟩ := addStrings_spec hnames packed_noStrings
  rw [h, List.nil_append] at hp hall
  have hzip : ∀ x ∈ names.zip offs, StoredAt l x.1 x.2 := by
    intro x hx
    exact (List.forall₂_iff_zip.mp hall).2 hx
  constructor
  · exact map_findString hp hall
  · intro x hx y hy
    constructor
    · intro heq
      have hx' := hzip x hx
      rw [heq] at hx'
      exact hx'.unique hp.nodup (hzip y hy)
    · intro heq
      have hx' := (hzip x hx).findString hp
      rw [heq, (hzip y hy).findString hp] at hx'
      exact hx'.symm

theorem addStrings_interned_ram :
    [0, 7, 0].map (findString (addStrings noStrings
      ["memory".toList, "ram".toList, "memory".toList]).1) =
        ["memory".toList, "ram".toList, "memory".toList] ∧
      ∀ x ∈ ["memory".toList, "ram".toList, "memory".toList].zip [0, 7, 0],
        ∀ y ∈ ["memory".toList, "ram".toList, "memory".toList].zip [0, 7, 0],
        x.1 = y.1 ↔ x.2 = y.2 :=
  addStrings_interned (by decide) (by decide)

end FridaCI.Startup
