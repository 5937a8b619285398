import FridaCI.Startup.AddressSpace

/-!
# The sysram entries

The part of startup/lib/ram.c that tells the kernel what memory is free: add_sysram makes entries
with the name sysram in the address space table, and alloc_ram keeps them up to date from then on.
-/

namespace FridaCI.Startup
open Segments

set_option autoImplicit false

def sysram : List Char := "sysram".toList

def ramName : List Char := "ram".toList

/-- The loop of alloc_ram over the sysram entries, with 64 bits for `stop`, the last address that
is taken. -/
def sysramLoop (attr addr stop : Nat) : Nat → Option Nat → SysPage → Result SysPage
  | 0, _, _ => .hang
  | fuel + 1, off, sp =>
    match asFindContaining sp off addr (stop % paddrs) sysram with
    | none => .ok sp
    | some o =>
      match sp.asinfo[o]? with
      | none => .ok sp
      | some as =>
        let e := if stop > as.last then stop else as.last
        let s := if addr < as.start then addr else as.start
        if addr = s ∧ stop = e then .crash
        else if addr = s then
          sysramLoop attr addr stop fuel (some o)
            { sp with asinfo := sp.asinfo.modify o fun as => { as with start := stop + 1 } }
        else
          let sp := { sp with
            asinfo := sp.asinfo.modify o fun as => { as with last := addr - 1 } }
          if e ≠ stop then
            sysramLoop attr addr stop fuel (some o)
              (asAdd sp ((stop + 1) % paddrs) (e % paddrs) attr false false sysram as.owner).1
          else sysramLoop attr addr stop fuel (some o) sp

/-- The loop of add_sysram. -/
def sysramEntries (attr : Nat) : List Segment → SysPage → SysPage
  | [], page => page
  | r :: rest, page => sysramEntries attr rest
      (asAddContaining page (r.addr % paddrs) ((r.stop - 1) % paddrs) attr false sysram
        ramName).1

/-! ## Entries that shrink -/

theorem regions_modify (sp : SysPage) (o start last : Nat) :
    (⟨sp.strings, sp.asinfo.modify o fun e => { e with start, last }⟩ : SysPage).regions =
      sp.regions.modify o fun r => { r with start, last } := by
  apply List.ext_getElem?
  intro j
  rw [regions_getElem?, List.getElem?_modify, List.getElem?_modify, regions_getElem?]
  cases sp.asinfo[j]? with
  | none => rfl
  | some e =>
    by_cases h : o = j
    · simp [h, SysPage.region, SysPage.name]
    · simp [h, SysPage.region, SysPage.name]

/-- No entry has one with this name as its owner. -/
def Leaves (rs : List Region) (name : List Char) : Prop :=
  ∀ r ∈ rs, ∀ (o : Nat) (c : Region), r.owner = some o → rs[o]? = some c → c.name ≠ name

theorem Leaves.within_iff {rs : List Region} {name : List Char} (h : Leaves rs name) {r : Region}
    (hr : r ∈ rs) : Within rs name r ↔ r.name = name := by
  constructor
  · intro hw
    induction hw with
    | self hname => exact hname
    | owner ho hc _ ih => exact absurd (ih (List.mem_of_getElem? hc)) (h _ hr _ _ ho hc)
  · exact .self

theorem mem_modify {rs : List Region} {o : Nat} {r t : Region} (hr : rs[o]? = some r)
    {f : Region → Region} :
    t ∈ rs.modify o f ↔ t = f r ∨ ∃ j, j ≠ o ∧ rs[j]? = some t := by
  constructor
  · intro ht
    obtain ⟨j, hj⟩ := List.mem_iff_getElem?.mp ht
    rw [List.getElem?_modify] at hj
    obtain ⟨t', ht', heq⟩ := Option.map_eq_some_iff.mp hj
    by_cases h : o = j
    · subst h
      rw [hr] at ht'
      cases ht'
      rw [if_pos rfl] at heq
      exact Or.inl heq.symm
    · rw [if_neg h] at heq
      rw [← heq]
      exact Or.inr ⟨j, fun hjo => h hjo.symm, ht'⟩
  · rintro (rfl | ⟨j, hj, ht⟩)
    · apply List.mem_of_getElem? (i := o)
      rw [List.getElem?_modify_eq, hr]
      rfl
    · apply List.mem_of_getElem? (i := j)
      rw [List.getElem?_modify_ne _ _ hj.symm, ht]

theorem Forest.shrink {rs : List Region} {name : List Char} (h : Forest rs)
    (hleaves : Leaves rs name) {o : Nat} {r : Region} (hr : rs[o]? = some r)
    (hname : r.name = name) {start last : Nat} (hle : start ≤ last) (hstart : r.start ≤ start)
    (hlast : last ≤ r.last) : Forest (rs.modify o fun r => { r with start, last }) := by
  constructor
  · intro t ht
    rcases (mem_modify hr).mp ht with rfl | ⟨j, _, ht⟩
    · exact hle
    · exact h.nonempty t (List.mem_of_getElem? ht)
  · intro i t p ht hp
    rw [List.getElem?_modify] at ht
    obtain ⟨t', ht', heq⟩ := Option.map_eq_some_iff.mp ht
    have hsame : t.owner = t'.owner ∧ t'.start ≤ t.start ∧ t.last ≤ t'.last := by
      rw [← heq]
      split
      · next hi =>
        subst hi
        rw [hr] at ht'
        cases ht'
        exact ⟨rfl, hstart, hlast⟩
      · exact ⟨rfl, Nat.le_refl _, Nat.le_refl _⟩
    rw [hsame.1] at hp
    obtain ⟨hless, c, hc, h₁, h₂⟩ := h.owned i t' p ht' hp
    have hother : o ≠ p := by
      rintro rfl
      rw [hr] at hc
      cases hc
      exact hleaves t' (List.mem_of_getElem? ht') o r hp hr hname
    refine ⟨hless, c, ?_, Nat.le_trans h₁ hsame.2.1, Nat.le_trans hsame.2.2 h₂⟩
    rw [List.getElem?_modify_ne _ _ hother, hc]

theorem Leaves.shrink {rs : List Region} {name : List Char} (h : Leaves rs name)
    (o start last : Nat) : Leaves (rs.modify o fun r => { r with start, last }) name := by
  have hback : ∀ (j : Nat) (t : Region),
      (rs.modify o fun r => { r with start, last })[j]? = some t →
      ∃ t', rs[j]? = some t' ∧ t.owner = t'.owner ∧ t.name = t'.name := by
    intro j t ht
    rw [List.getElem?_modify] at ht
    obtain ⟨t', ht', heq⟩ := Option.map_eq_some_iff.mp ht
    refine ⟨t', ht', ?_⟩
    rw [← heq]
    split
    · exact ⟨rfl, rfl⟩
    · exact ⟨rfl, rfl⟩
  intro t ht p c hp hc
  obtain ⟨j, hj⟩ := List.mem_iff_getElem?.mp ht
  obtain ⟨t', ht', howner, _⟩ := hback j t hj
  obtain ⟨c', hc', _, hname⟩ := hback p c hc
  rw [hname]
  rw [howner] at hp
  exact h t' (List.mem_of_getElem? ht') p c' hp hc'

theorem Leaves.append {rs : List Region} {name : List Char} (h : Leaves rs name)
    (hforest : Forest rs) {r : Region}
    (hr : ∀ (o : Nat) (c : Region), r.owner = some o → rs[o]? = some c → c.name ≠ name)
    (howner : ∀ o, r.owner = some o → o < rs.length) : Leaves (rs ++ [r]) name := by
  intro t ht o c ho hc
  rcases List.mem_append.mp ht with ht | ht
  · obtain ⟨j, hj⟩ := List.mem_iff_getElem?.mp ht
    obtain ⟨_, c', hc', _⟩ := hforest.owned j t o hj ho
    rw [List.getElem?_append_left (List.getElem?_eq_some_iff.mp hc').1] at hc
    exact h t ht o c ho hc
  · rw [List.mem_singleton.mp ht] at ho
    rw [List.getElem?_append_left (howner o ho)] at hc
    exact hr o c ho hc

theorem Table.shrink {sp : SysPage} (h : Table sp) {name : List Char}
    (hleaves : Leaves sp.regions name) {o : Nat} {r : Region} (hr : sp.regions[o]? = some r)
    (hname : r.name = name) {start last : Nat} (hle : start ≤ last) (hstart : r.start ≤ start)
    (hlast : last ≤ r.last) :
    Table ⟨sp.strings, sp.asinfo.modify o fun e => { e with start, last }⟩ := by
  constructor
  · exact @Interned.modify _ h.interned o (fun e => { e with start, last }) fun _ => rfl
  · rw [regions_modify]
    exact h.forest.shrink hleaves hr hname hle hstart hlast

/-! ## The loop over the sysram entries -/

def sysramCells (rs : List Region) : Set Nat := {x | ∃ r ∈ rs, r.name = sysram ∧ x ∈ r.cells}

theorem mem_sysramCells {rs : List Region} {x : Nat} :
    x ∈ sysramCells rs ↔ ∃ r ∈ rs, r.name = sysram ∧ x ∈ r.cells := Iff.rfl

/-- A table in which sysram entries can be shrunk. -/
structure Kept (sp : SysPage) : Prop where
  table : Table sp
  leaves : Leaves sp.regions sysram
  bounded : ∀ r ∈ sp.regions, r.name = sysram → r.last < paddrs

section Loop
variable (addr stop : Nat)

/-- A sysram entry with some address from `addr` to `stop`. -/
def Hits (r : Region) : Prop := r.name = sysram ∧ r.start ≤ stop ∧ addr ≤ r.last

/-- The addresses from `addr` to `stop` are taken out of the sysram entries, no entry is lost,
and all others stay as they are. -/
structure Removed (rs rs' : List Region) : Prop where
  cells : sysramCells rs' = sysramCells rs \ range addr (stop + 1)
  outside : ∀ r ∈ rs, r.name = sysram → ¬ (addr ≤ r.start ∧ r.last ≤ stop)
  others : rs'.filter (fun r => r.name ≠ sysram) = rs.filter fun r => r.name ≠ sysram

/-- The same for the entry `r` at the index `o` alone. -/
structure Trimmed (o : Nat) (r : Region) (rs rs₁ : List Region) : Prop where
  same : ∀ (j : Nat) (t : Region), j ≠ o → rs[j]? = some t → rs₁[j]? = some t
  back : ∀ (j : Nat) (t : Region), rs₁[j]? = some t → (j ≠ o ∧ rs[j]? = some t) ∨
    (t.name = sysram ∧ t.start ≤ t.last ∧ ∀ x ∈ t.cells, x ∈ r.cells ∧ x ∉ range addr (stop + 1))
  covers : ∀ x ∈ r.cells, x ∉ range addr (stop + 1) → x ∈ sysramCells rs₁
  others : rs₁.filter (fun r => r.name ≠ sysram) = rs.filter fun r => r.name ≠ sysram

variable {addr stop}

theorem not_hits_of_clear {t : Region} (hle : addr ≤ stop) (hne : t.start ≤ t.last)
    (hclear : ∀ x ∈ t.cells, x ∉ range addr (stop + 1)) : ¬ Hits addr stop t := by
  rintro ⟨_, h₁, h₂⟩
  apply hclear (max t.start addr)
  · rw [Region.cells, mem_range]
    omega
  · rw [mem_range]
    omega

theorem removed_refl {rs : List Region} (hne : ∀ r ∈ rs, r.start ≤ r.last)
    (hnone : ∀ r ∈ rs, ¬ Hits addr stop r) : Removed addr stop rs rs := by
  refine ⟨?_, ?_, rfl⟩
  · ext x
    rw [Set.mem_sdiff]
    constructor
    · intro hx
      refine ⟨hx, ?_⟩
      obtain ⟨r, hr, hname, hx⟩ := hx
      intro hin
      rw [mem_range] at hin
      exact hnone r hr ⟨hname, Nat.le_trans hx.1 (Nat.le_of_lt_succ hin.2),
        Nat.le_trans hin.1 (Nat.le_of_lt_succ hx.2)⟩
    · exact fun hx => hx.1
  · intro r hr hname hin
    have h := hne r hr
    exact hnone r hr ⟨hname, by omega, by omega⟩

theorem Trimmed.removed {o : Nat} {r : Region} {rs rs₁ rs' : List Region}
    (h : Trimmed addr stop o r rs rs₁) (hr : rs[o]? = some r) (hname : r.name = sysram)
    (hnot : ¬ (addr ≤ r.start ∧ r.last ≤ stop)) (hrest : Removed addr stop rs₁ rs') :
    Removed addr stop rs rs' := by
  refine ⟨?_, ?_, hrest.others.trans h.others⟩
  · rw [hrest.cells]
    ext x
    rw [Set.mem_sdiff, Set.mem_sdiff]
    constructor
    · rintro ⟨⟨t, ht, htname, hx⟩, hout⟩
      refine ⟨?_, hout⟩
      obtain ⟨j, hj⟩ := List.mem_iff_getElem?.mp ht
      rcases h.back j t hj with ⟨_, hj⟩ | ⟨_, _, hcells⟩
      · exact ⟨t, List.mem_of_getElem? hj, htname, hx⟩
      · exact ⟨r, List.mem_of_getElem? hr, hname, (hcells x hx).1⟩
    · rintro ⟨⟨t, ht, htname, hx⟩, hout⟩
      refine ⟨?_, hout⟩
      obtain ⟨j, hj⟩ := List.mem_iff_getElem?.mp ht
      by_cases hjo : j = o
      · subst hjo
        rw [hr] at hj
        cases hj
        exact h.covers x hx hout
      · exact ⟨t, List.mem_of_getElem? (h.same j t hjo hj), htname, hx⟩
  · intro t ht htname hin
    obtain ⟨j, hj⟩ := List.mem_iff_getElem?.mp ht
    by_cases hjo : j = o
    · subst hjo
      rw [hr] at hj
      cases hj
      exact hnot hin
    · exact hrest.outside t (List.mem_of_getElem? (h.same j t hjo hj)) htname hin

theorem meets_iff_overlap {e : AsEntry} (hle : addr ≤ stop) (he : e.start ≤ e.last) :
    e.meets addr stop = true ↔ e.start ≤ stop ∧ addr ≤ e.last := by
  unfold AsEntry.meets
  rw [decide_eq_true_eq]
  omega

theorem hit_iff {sp : SysPage} (h : Kept sp) (hle : addr ≤ stop) {j : Nat} {e : AsEntry}
    (he : sp.asinfo[j]? = some e) :
    (within sp sysram e && e.meets addr stop) = true ↔ Hits addr stop (sp.region e) := by
  have hmem : sp.region e ∈ sp.regions := List.mem_map_of_mem (List.mem_of_getElem? he)
  rw [Bool.and_eq_true_iff, within_iff h.table.forest sysram he, h.leaves.within_iff hmem,
    meets_iff_overlap hle (h.table.forest.nonempty _ hmem)]
  exact Iff.rfl

/-- The first entry behind `off` that is hit. -/
theorem asFindContaining_sysram {sp : SysPage} (h : Kept sp) (hle : addr ≤ stop)
    (off : Option Nat) :
    (asFindContaining sp off addr stop sysram = none ∧
      ∀ (j : Nat) (t : Region), behind off ≤ j → sp.regions[j]? = some t →
        ¬ Hits addr stop t) ∨
    ∃ o e, asFindContaining sp off addr stop sysram = some o ∧ behind off ≤ o ∧
      sp.asinfo[o]? = some e ∧ Hits addr stop (sp.region e) ∧
      ∀ (j : Nat) (t : Region), behind off ≤ j → j < o → sp.regions[j]? = some t →
        ¬ Hits addr stop t := by
  have hmiss : ∀ (j : Nat) (t : Region), sp.regions[j]? = some t →
      (∀ e, sp.asinfo[j]? = some e → (within sp sysram e && e.meets addr stop) = false) →
      ¬ Hits addr stop t := by
    intro j t ht hfalse hhits
    rw [regions_getElem?] at ht
    obtain ⟨e, he, rfl⟩ := Option.map_eq_some_iff.mp ht
    have htrue := (hit_iff h hle he).mpr hhits
    rw [hfalse e he] at htrue
    cases htrue
  unfold asFindContaining
  cases hfind : (sp.asinfo.drop (behind off)).findIdx? fun e =>
      within sp sysram e && e.meets addr stop with
  | none =>
    refine Or.inl ⟨rfl, ?_⟩
    intro j t hj ht
    apply hmiss j t ht
    intro e he
    apply List.findIdx?_eq_none_iff.mp hfind e
    apply List.mem_of_getElem? (i := j - behind off)
    rw [List.getElem?_drop, Nat.add_sub_cancel' hj, he]
  | some i =>
    obtain ⟨hi, hhit, hbefore⟩ := List.findIdx?_eq_some_iff_getElem.mp hfind
    have hget : sp.asinfo[i + behind off]? = some (sp.asinfo.drop (behind off))[i] := by
      rw [← List.getElem?_eq_getElem hi, List.getElem?_drop, Nat.add_comm]
    refine Or.inr ⟨i + behind off, _, rfl, by omega, hget, (hit_iff h hle hget).mp hhit, ?_⟩
    intro j t hj hless ht
    apply hmiss j t ht
    intro e he
    have hj' : j - behind off < i := by omega
    have hfalse := hbefore (j - behind off) hj'
    have hsame : (sp.asinfo.drop (behind off))[j - behind off] = e := by
      apply Option.some.inj
      rw [← List.getElem?_eq_getElem (by omega), List.getElem?_drop, Nat.add_sub_cancel' hj, he]
    rw [hsame] at hfalse
    rwa [Bool.not_eq_true] at hfalse

end Loop

theorem filter_modify {α : Type} {p : α → Bool} {l : List α} {o : Nat} {r : α} {f : α → α}
    (hr : l[o]? = some r) (hp : p r = false) (hf : p (f r) = false) :
    (l.modify o f).filter p = l.filter p := by
  induction l generalizing o with
  | nil => simp at hr
  | cons a l ih =>
    cases o with
    | zero =>
      obtain rfl : a = r := Option.some.inj hr
      rw [List.modify_zero_cons, List.filter_cons_of_neg (by simp [hf]),
        List.filter_cons_of_neg (by simp [hp])]
    | succ o =>
      rw [List.modify_succ_cons, List.filter_cons, List.filter_cons, ih hr]

theorem modify_congr {α : Type} {l : List α} {o : Nat} {e : α} {f g : α → α}
    (he : l[o]? = some e) (hfg : f e = g e) : l.modify o f = l.modify o g := by
  apply List.ext_getElem?
  intro j
  by_cases h : o = j
  · subst h
    rw [List.getElem?_modify_eq, List.getElem?_modify_eq, he]
    exact congrArg some hfg
  · rw [List.getElem?_modify_ne _ _ h, List.getElem?_modify_ne _ _ h]

section Trim
variable {addr stop o start last : Nat} {r : Region} {rs new : List Region}

/-- The entry gets smaller, and what else is left of it comes behind the table. -/
theorem trimmed_modify (hr : rs[o]? = some r) (hname : r.name = sysram) (hle : start ≤ last)
    (hpart : ∀ x, start ≤ x → x ≤ last → x ∈ r.cells ∧ x ∉ range addr (stop + 1))
    (hnew : ∀ t ∈ new, t.name = sysram ∧ t.start ≤ t.last ∧
      ∀ x ∈ t.cells, x ∈ r.cells ∧ x ∉ range addr (stop + 1))
    (hcovers : ∀ x ∈ r.cells, x ∉ range addr (stop + 1) →
      (start ≤ x ∧ x ≤ last) ∨ ∃ t ∈ new, x ∈ t.cells) :
    Trimmed addr stop o r rs ((rs.modify o fun t => { t with start, last }) ++ new) := by
  have hlength : (rs.modify o fun t => { t with start, last }).length = rs.length :=
    List.length_modify ..
  constructor
  · intro j t hj ht
    have hless := (List.getElem?_eq_some_iff.mp ht).1
    rw [List.getElem?_append_left (by omega), List.getElem?_modify_ne _ _ hj.symm, ht]
  · intro j t ht
    rcases Nat.lt_or_ge j rs.length with hless | hge
    · rw [List.getElem?_append_left (by omega)] at ht
      by_cases hj : j = o
      · subst hj
        rw [List.getElem?_modify_eq, hr] at ht
        cases ht
        refine Or.inr ⟨hname, hle, ?_⟩
        intro x hx
        exact hpart x hx.1 (Nat.le_of_lt_succ hx.2)
      · rw [List.getElem?_modify_ne _ _ fun h => hj h.symm] at ht
        exact Or.inl ⟨hj, ht⟩
    · rw [List.getElem?_append_right (by omega)] at ht
      exact Or.inr (hnew t (List.mem_of_getElem? ht))
  · intro x hx hout
    rcases hcovers x hx hout with ⟨h₁, h₂⟩ | ⟨t, ht, hx⟩
    · refine ⟨{ r with start, last }, ?_, hname, h₁, Nat.lt_succ_of_le h₂⟩
      exact List.mem_append_left _ ((mem_modify hr).mpr (Or.inl rfl))
    · exact ⟨t, List.mem_append_right _ ht, (hnew t ht).1, hx⟩
  · have hnone : new.filter (fun r => r.name ≠ sysram) = [] := by
      rw [List.filter_eq_nil_iff]
      intro t ht
      simp [(hnew t ht).1]
    rw [List.filter_append, hnone, List.append_nil, filter_modify hr]
    · simp [hname]
    · simp [hname]

end Trim

theorem Kept.shrink {sp : SysPage} (h : Kept sp) {o : Nat} {r : Region}
    (hr : sp.regions[o]? = some r) (hname : r.name = sysram) {start last : Nat}
    (hle : start ≤ last) (hstart : r.start ≤ start) (hlast : last ≤ r.last) :
    Kept ⟨sp.strings, sp.asinfo.modify o fun e => { e with start, last }⟩ := by
  constructor
  · exact h.table.shrink h.leaves hr hname hle hstart hlast
  · rw [regions_modify]
    exact h.leaves.shrink o start last
  · rw [regions_modify]
    intro t ht htname
    rcases (mem_modify hr).mp ht with rfl | ⟨j, _, ht⟩
    · exact Nat.lt_of_le_of_lt hlast (h.bounded r (List.mem_of_getElem? hr) hname)
    · exact h.bounded t (List.mem_of_getElem? ht) htname

/-- An owner that is not a sysram entry. -/
def NoLeaf (sp : SysPage) (owner : Option Nat) : Prop :=
  ∀ (o : Nat) (c : Region), owner = some o → sp.regions[o]? = some c → c.name ≠ sysram

theorem Kept.addEntry {sp : SysPage} (h : Kept sp) {start last : Nat} (attr : Nat)
    (continued : Bool) {name : List Char} (hname : name ≠ [] ∧ IsString name) {owner : Option Nat}
    (hle : start ≤ last) (hlast : last < paddrs) (howner : Owned sp owner start last)
    (hleaf : NoLeaf sp owner) :
    ∃ sp', Startup.addEntry sp start last attr continued name owner = (sp', sp.asinfo.length) ∧
      Kept sp' ∧ sp'.regions = sp.regions ++ [⟨start, last, owner, name⟩] := by
  obtain ⟨sp', hadd, htable, hregions, _⟩ := h.table.addEntry attr continued hname hle howner
  refine ⟨sp', hadd, ⟨htable, ?_, ?_⟩, hregions⟩
  · rw [hregions]
    refine @Leaves.append _ _ h.leaves h.table.forest ⟨start, last, owner, name⟩ hleaf ?_
    intro o ho
    obtain ⟨c, hc, _⟩ := howner o ho
    exact (List.getElem?_eq_some_iff.mp hc).1
  · rw [hregions]
    intro t ht htname
    rcases List.mem_append.mp ht with ht | ht
    · exact h.bounded t ht htname
    · rw [List.mem_singleton.mp ht]
      exact hlast

/-- The owner of an entry. -/
theorem Kept.owner {sp : SysPage} (h : Kept sp) {o : Nat} {r : Region}
    (hr : sp.regions[o]? = some r) : Owned sp r.owner r.start r.last ∧ NoLeaf sp r.owner := by
  constructor
  · intro p hp
    obtain ⟨_, c, hc, hin⟩ := h.table.forest.owned o r p hr hp
    exact ⟨c, hc, hin⟩
  · exact h.leaves r (List.mem_of_getElem? hr)

section Trims
variable {addr stop o : Nat} {sp : SysPage} {e : AsEntry}

theorem region_getElem? (he : sp.asinfo[o]? = some e) : sp.regions[o]? = some (sp.region e) := by
  rw [regions_getElem?, he]
  rfl

theorem mem_region_cells {x : Nat} : x ∈ (sp.region e).cells ↔ e.start ≤ x ∧ x < e.last + 1 :=
  Iff.rfl

/-- The end of the entry is left. -/
theorem Kept.trimFront (h : Kept sp) (he : sp.asinfo[o]? = some e)
    (hname : (sp.region e).name = sysram) (hstart : addr ≤ e.start) (hs : e.start ≤ stop)
    (hmore : stop < e.last) :
    Kept ⟨sp.strings, sp.asinfo.modify o fun as => { as with start := stop + 1 }⟩ ∧
      Trimmed addr stop o (sp.region e) sp.regions
        (⟨sp.strings, sp.asinfo.modify o fun as => { as with start := stop + 1 }⟩ :
          SysPage).regions := by
  have hr := region_getElem? he
  have hsame : sp.asinfo.modify o (fun as => { as with start := stop + 1 }) =
      sp.asinfo.modify o fun as => { as with start := stop + 1, last := e.last } :=
    modify_congr he rfl
  rw [hsame]
  constructor
  · exact h.shrink hr hname (by omega) (Nat.le_trans hs (Nat.le_succ stop)) (Nat.le_refl _)
  · have htrimmed := @trimmed_modify addr stop o (stop + 1) e.last _ sp.regions [] hr hname hmore
    rw [List.append_nil] at htrimmed
    rw [regions_modify]
    apply htrimmed
    · intro x h₁ h₂
      rw [mem_region_cells, mem_range]
      omega
    · exact fun t ht => absurd ht List.not_mem_nil
    · intro x hx hout
      rw [mem_region_cells] at hx
      rw [mem_range] at hout
      exact Or.inl (by omega)

theorem Kept.back (h : Kept sp) (he : sp.asinfo[o]? = some e)
    (hname : (sp.region e).name = sysram) (hstart : e.start < addr) (hl : addr ≤ e.last) :
    Kept ⟨sp.strings, sp.asinfo.modify o fun as => { as with last := addr - 1 }⟩ ∧
      (⟨sp.strings, sp.asinfo.modify o fun as => { as with last := addr - 1 }⟩ :
        SysPage).regions =
        sp.regions.modify o fun r => { r with start := e.start, last := addr - 1 } := by
  have hsame : sp.asinfo.modify o (fun as => { as with last := addr - 1 }) =
      sp.asinfo.modify o fun as => { as with start := e.start, last := addr - 1 } :=
    modify_congr he rfl
  rw [hsame, regions_modify]
  refine ⟨?_, rfl⟩
  exact h.shrink (region_getElem? he) hname (by omega) (Nat.le_refl _)
    (Nat.le_trans (Nat.sub_le addr 1) hl)

/-- The front of the entry is left. -/
theorem Kept.trimBack (h : Kept sp) (he : sp.asinfo[o]? = some e)
    (hname : (sp.region e).name = sysram) (hstart : e.start < addr) (hl : addr ≤ e.last)
    (hend : e.last ≤ stop) :
    Kept ⟨sp.strings, sp.asinfo.modify o fun as => { as with last := addr - 1 }⟩ ∧
      Trimmed addr stop o (sp.region e) sp.regions
        (⟨sp.strings, sp.asinfo.modify o fun as => { as with last := addr - 1 }⟩ :
          SysPage).regions := by
  obtain ⟨hkept, hregions⟩ := h.back he hname hstart hl
  refine ⟨hkept, ?_⟩
  have htrimmed := @trimmed_modify addr stop o e.start (addr - 1) _ sp.regions []
    (region_getElem? he) hname (by omega)
  rw [List.append_nil] at htrimmed
  rw [hregions]
  apply htrimmed
  · intro x h₁ h₂
    rw [mem_region_cells, mem_range]
    omega
  · exact fun t ht => absurd ht List.not_mem_nil
  · intro x hx hout
    rw [mem_region_cells] at hx
    rw [mem_range] at hout
    exact Or.inl (by omega)

/-- The entry is split in two. -/
theorem Kept.splitEntry (h : Kept sp) (he : sp.asinfo[o]? = some e)
    (hname : (sp.region e).name = sysram) (attr : Nat) (hstart : e.start < addr)
    (hle : addr ≤ stop) (hmore : stop < e.last) :
    Kept (asAdd ⟨sp.strings, sp.asinfo.modify o fun as => { as with last := addr - 1 }⟩ (stop + 1)
        e.last attr false false sysram e.owner).1 ∧
      Trimmed addr stop o (sp.region e) sp.regions
        (asAdd ⟨sp.strings, sp.asinfo.modify o fun as => { as with last := addr - 1 }⟩ (stop + 1)
          e.last attr false false sysram e.owner).1.regions := by
  have hr := region_getElem? he
  obtain ⟨howned, hleaf⟩ := h.owner hr
  obtain ⟨hkept, hregions⟩ := h.back he hname hstart (by omega)
  generalize (⟨sp.strings, sp.asinfo.modify o fun as => { as with last := addr - 1 }⟩ : SysPage) =
    sp₁ at hkept hregions
  have hother : ∀ (p : Nat) (c : Region), e.owner = some p → sp.regions[p]? = some c →
      sp₁.regions[p]? = some c := by
    intro p c hp hc
    have hpo : o ≠ p := by
      rintro rfl
      exact hleaf o _ hp hr hname
    rw [hregions, List.getElem?_modify_ne _ _ hpo, hc]
  have howned₁ : Owned sp₁ e.owner (stop + 1) e.last := by
    intro p hp
    obtain ⟨c, hc, h₁, h₂⟩ := howned p hp
    change c.start ≤ e.start at h₁
    exact ⟨c, hother p c hp hc, by omega, h₂⟩
  have hleaf₁ : NoLeaf sp₁ e.owner := by
    intro p c hp hc
    obtain ⟨c', hc', _⟩ := howned p hp
    rw [hother p c' hp hc'] at hc
    cases hc
    exact hleaf p _ hp hc'
  have hstring : sysram ≠ [] ∧ IsString sysram := by decide
  have hlimit : e.last < paddrs := h.bounded _ (List.mem_of_getElem? hr) hname
  obtain ⟨sp₂, hadd, hkept₂, hregions₂⟩ :=
    hkept.addEntry attr false hstring (Nat.succ_le_of_lt hmore) hlimit howned₁ hleaf₁
  have hstep : (asAdd sp₁ (stop + 1) e.last attr false false sysram e.owner).1 = sp₂ := by
    rw [asAdd, hadd]
    rfl
  rw [hstep]
  refine ⟨hkept₂, ?_⟩
  rw [hregions₂, hregions]
  apply trimmed_modify hr hname (by omega)
  · intro x h₁ h₂
    rw [mem_region_cells, mem_range]
    omega
  · intro t ht
    rw [List.mem_singleton.mp ht]
    refine ⟨rfl, Nat.succ_le_of_lt hmore, ?_⟩
    intro x hx
    rw [Region.cells, mem_range] at hx
    dsimp only at hx
    rw [mem_region_cells, mem_range]
    omega
  · intro x hx hout
    rw [mem_region_cells] at hx
    rw [mem_range] at hout
    by_cases hless : x < addr
    · exact Or.inl (by omega)
    · exact Or.inr ⟨_, .head _, by change stop + 1 ≤ x; omega, hx.2⟩

end Trims

/-- One entry is trimmed, and the loop goes on behind it. -/
theorem sysramLoop_step {attr addr stop n fuel : Nat} (hle : addr ≤ stop) {off : Option Nat}
    {sp sp₁ : SysPage} {o : Nat} {r : Region} (hr : sp.regions[o]? = some r)
    (hname : r.name = sysram) (hnot : ¬ (addr ≤ r.start ∧ r.last ≤ stop))
    (hclean : ∀ (j : Nat) (t : Region), sp.regions[j]? = some t → j < behind off ∨ n ≤ j →
      ¬ Hits addr stop t)
    (hfirst : ∀ (j : Nat) (t : Region), behind off ≤ j → j < o → sp.regions[j]? = some t →
      ¬ Hits addr stop t)
    (htrimmed : Trimmed addr stop o r sp.regions sp₁.regions)
    (hrest : (∀ (j : Nat) (t : Region), sp₁.regions[j]? = some t → j < behind (some o) ∨ n ≤ j →
        ¬ Hits addr stop t) →
      (sysramLoop attr addr stop fuel (some o) sp₁ = .crash ∧
        ∃ t ∈ sp₁.regions, t.name = sysram ∧ addr ≤ t.start ∧ t.last ≤ stop) ∨
      ∃ sp', sysramLoop attr addr stop fuel (some o) sp₁ = .ok sp' ∧ Kept sp' ∧
        Removed addr stop sp₁.regions sp'.regions) :
    (sysramLoop attr addr stop fuel (some o) sp₁ = .crash ∧
      ∃ t ∈ sp.regions, t.name = sysram ∧ addr ≤ t.start ∧ t.last ≤ stop) ∨
    ∃ sp', sysramLoop attr addr stop fuel (some o) sp₁ = .ok sp' ∧ Kept sp' ∧
      Removed addr stop sp.regions sp'.regions := by
  have hnext : ∀ (j : Nat) (t : Region), sp₁.regions[j]? = some t →
      j < behind (some o) ∨ n ≤ j → ¬ Hits addr stop t := by
    intro j t ht hj
    rcases htrimmed.back j t ht with ⟨hjo, ht⟩ | ⟨_, hne, hcells⟩
    · change j < o + 1 ∨ n ≤ j at hj
      rcases Nat.lt_or_ge j (behind off) with hless | hge
      · exact hclean j t ht (Or.inl hless)
      · rcases hj with hj | hj
        · exact hfirst j t hge (by omega) ht
        · exact hclean j t ht (Or.inr hj)
    · exact not_hits_of_clear hle hne fun x hx => (hcells x hx).2
  rcases hrest hnext with ⟨hcrash, t, ht, htname, hin⟩ | ⟨sp', hok, hkept, hremoved⟩
  · obtain ⟨j, hj⟩ := List.mem_iff_getElem?.mp ht
    rcases htrimmed.back j t hj with ⟨_, hj⟩ | ⟨_, hne, hcells⟩
    · exact Or.inl ⟨hcrash, t, List.mem_of_getElem? hj, htname, hin⟩
    · refine absurd ⟨htname, ?_, ?_⟩ (not_hits_of_clear hle hne fun x hx => (hcells x hx).2)
      · exact Nat.le_trans hne hin.2
      · exact Nat.le_trans hin.1 hne
  · exact Or.inr ⟨sp', hok, hkept, htrimmed.removed hr hname hnot hremoved⟩

theorem sysramLoop_spec (attr : Nat) {addr stop n : Nat} (hle : addr ≤ stop)
    (hstop : stop < paddrs) {fuel : Nat} {off : Option Nat} {sp : SysPage} (h : Kept sp)
    (hclean : ∀ (j : Nat) (t : Region), sp.regions[j]? = some t → j < behind off ∨ n ≤ j →
      ¬ Hits addr stop t)
    (hbehind : behind off ≤ n) (hfuel : n < fuel + behind off) :
    (sysramLoop attr addr stop fuel off sp = .crash ∧
      ∃ r ∈ sp.regions, r.name = sysram ∧ addr ≤ r.start ∧ r.last ≤ stop) ∨
    ∃ sp', sysramLoop attr addr stop fuel off sp = .ok sp' ∧ Kept sp' ∧
      Removed addr stop sp.regions sp'.regions := by
  induction fuel generalizing off sp with
  | zero => omega
  | succ fuel ih =>
    have hne := h.table.forest.nonempty
    rw [sysramLoop, Nat.mod_eq_of_lt hstop]
    rcases asFindContaining_sysram h hle off with
      ⟨hfind, hnone⟩ | ⟨o, e, hfind, ho, he, hhits, hfirst⟩
    · rw [hfind]
      refine Or.inr ⟨sp, rfl, h, removed_refl hne ?_⟩
      intro r hr
      obtain ⟨j, hj⟩ := List.mem_iff_getElem?.mp hr
      rcases Nat.lt_or_ge j (behind off) with hless | hge
      · exact hclean j r hj (Or.inl hless)
      · exact hnone j r hge hj
    · obtain ⟨hname, hs, hl⟩ := hhits
      have hr : sp.regions[o]? = some (sp.region e) := by
        rw [regions_getElem?, he]
        rfl
      have hmem := List.mem_of_getElem? hr
      have hlimit : e.last < paddrs := h.bounded _ hmem hname
      have hle' : e.start ≤ e.last := hne _ hmem
      change e.start ≤ stop at hs
      change addr ≤ e.last at hl
      have hon : o < n := by
        by_contra hge
        exact hclean o _ hr (Or.inr (by omega)) ⟨hname, hs, hl⟩
      rw [hfind]
      dsimp only
      rw [he]
      dsimp only
      have hstep := fun sp₁ hnot htrimmed (hkept : Kept sp₁) =>
        @sysramLoop_step attr addr stop n fuel hle off sp sp₁ o _ hr hname hnot hclean hfirst
          htrimmed fun hnext => ih hkept hnext (by change o + 1 ≤ n; omega)
            (by change n < fuel + (o + 1); omega)
      have hs' : (addr = if addr < e.start then addr else e.start) ↔ addr ≤ e.start := by
        split <;> omega
      have he' : (stop = if stop > e.last then stop else e.last) ↔ e.last ≤ stop := by
        split <;> omega
      have hrest : ((if stop > e.last then stop else e.last) ≠ stop) ↔ stop < e.last := by
        split <;> omega
      simp only [hs', he', hrest]
      by_cases hwhole : addr ≤ e.start ∧ e.last ≤ stop
      · rw [if_pos hwhole]
        exact Or.inl ⟨rfl, _, hmem, hname, hwhole⟩
      · rw [if_neg hwhole]
        have hnot : ¬ (addr ≤ (sp.region e).start ∧ (sp.region e).last ≤ stop) := hwhole
        by_cases hstart : addr ≤ e.start
        · -- the end of the entry is left
          rw [if_pos hstart]
          obtain ⟨hkept, htrimmed⟩ := h.trimFront he hname hstart hs (by omega)
          exact hstep _ hnot htrimmed hkept
        · rw [if_neg hstart]
          by_cases hmore : stop < e.last
          · -- the entry is split in two
            rw [if_pos hmore, if_neg (Nat.not_lt_of_gt hmore), Nat.mod_eq_of_lt (by omega),
              Nat.mod_eq_of_lt hlimit]
            obtain ⟨hkept, htrimmed⟩ := h.splitEntry he hname attr (by omega) hle hmore
            exact hstep _ hnot htrimmed hkept
          · -- the front of the entry is left
            rw [if_neg hmore]
            obtain ⟨hkept, htrimmed⟩ :=
              h.trimBack he hname (Nat.lt_of_not_le hstart) hl (Nat.le_of_not_lt hmore)
            exact hstep _ hnot htrimmed hkept

/-! ## add_sysram -/

/-- The addresses are in entries of the container. -/
def Covers (rs : List Region) (container : List Char) (free : Set Nat) : Prop :=
  ∀ x ∈ free, ∃ r ∈ rs, Within rs container r ∧ x ∈ r.cells

theorem Covers.append {rs : List Region} {container : List Char} {free : Set Nat}
    (h : Covers rs container free) (hforest : Forest rs) (new : List Region) :
    Covers (rs ++ new) container free := by
  intro x hx
  obtain ⟨r, hr, hin, hx⟩ := h x hx
  obtain ⟨j, hj⟩ := List.mem_iff_getElem?.mp hr
  exact ⟨r, List.mem_append_left _ hr, (within_append hforest new hj).mpr hin, hx⟩

theorem sysramCells_append (rs new : List Region) :
    sysramCells (rs ++ new) = sysramCells rs ∪ sysramCells new := by
  ext x
  rw [Set.mem_union, mem_sysramCells, mem_sysramCells, mem_sysramCells]
  constructor
  · rintro ⟨r, hr, h⟩
    rcases List.mem_append.mp hr with hr | hr
    · exact Or.inl ⟨r, hr, h⟩
    · exact Or.inr ⟨r, hr, h⟩
  · rintro (⟨r, hr, h⟩ | ⟨r, hr, h⟩)
    · exact ⟨r, List.mem_append_left _ hr, h⟩
    · exact ⟨r, List.mem_append_right _ hr, h⟩

theorem sysramCells_others {rs : List Region} (h : ∀ r ∈ rs, r.name ≠ sysram) :
    sysramCells rs = ∅ := by
  rw [Set.eq_empty_iff_forall_notMem]
  rintro x ⟨r, hr, hname, _⟩
  exact h r hr hname

/-- The sysram entries for one piece of free memory: no entry becomes an owner that is a sysram
entry, since the pieces of free memory do not overlap. -/
theorem Kept.addSegment {sp : SysPage} (h : Kept sp) (attr : Nat) {s : Segment}
    (hpos : 0 < s.size) (hstop : s.stop < paddrs)
    (hfresh : ∀ x ∈ s.cells, x ∉ sysramCells sp.regions)
    (hcovers : Covers sp.regions ramName s.cells) :
    ∃ sp' new, asAddContaining sp (s.addr % paddrs) ((s.stop - 1) % paddrs) attr false sysram
        ramName = (sp', if new = [] then none else some sp.asinfo.length) ∧ Kept sp' ∧
      sp'.regions = sp.regions ++ new ∧
      sysramCells sp'.regions = sysramCells sp.regions ∪ s.cells := by
  have hsize : s.addr < s.stop := by
    unfold Segment.stop
    omega
  have hstring : sysram ≠ [] ∧ IsString sysram := by decide
  rw [Nat.mod_eq_of_lt (by omega), Nat.mod_eq_of_lt (by omega)]
  obtain ⟨sp', new, hcall, htable, hregions, hcontained⟩ :=
    @asAddContaining_spec sp h.table s.addr (s.stop - 1) attr false sysram ramName hstring
      (by omega) (by omega)
  rw [if_neg Bool.false_ne_true, List.append_nil] at hregions
  have hcells : ∀ x, (∃ r ∈ new, x ∈ r.cells) ↔ x ∈ s.cells := by
    intro x
    rw [hcontained.covers x, Segment.cells, mem_range]
    constructor
    · rintro ⟨h₁, h₂, _⟩
      omega
    · intro hx
      exact ⟨hx.1, by omega, hcovers x hx⟩
  have hne : ∀ r ∈ new, r.start ≤ r.last := by
    intro r hr
    apply htable.forest.nonempty
    rw [hregions]
    exact List.mem_append_right _ hr
  refine ⟨sp', new, hcall, ⟨htable, ?_, ?_⟩, hregions, ?_⟩
  · intro t ht o c ho hc
    rw [hregions] at ht
    rcases List.mem_append.mp ht with hold | hnew
    · obtain ⟨j, hj⟩ := List.mem_iff_getElem?.mp hold
      obtain ⟨_, c', hc', _⟩ := h.table.forest.owned j t o hj ho
      rw [hregions, List.getElem?_append_left (List.getElem?_eq_some_iff.mp hc').1] at hc
      exact h.leaves t hold o c ho hc
    · intro hname
      obtain ⟨o', c', ho', hc', _⟩ := hcontained.owned t hnew
      obtain rfl : o = o' := Option.some.inj (ho.symm.trans ho')
      have hold : sp'.regions[o]? = some c' := by
        rw [hregions, List.getElem?_append_left (List.getElem?_eq_some_iff.mp hc').1, hc']
      rw [hc] at hold
      cases hold
      obtain ⟨j, hj⟩ := List.mem_iff_getElem?.mp ht
      obtain ⟨_, c'', hc'', h₁, h₂⟩ := htable.forest.owned j t o (by rw [hregions, hj]) ho
      rw [hc] at hc''
      cases hc''
      have hin : t.start ∈ t.cells := ⟨Nat.le_refl _, Nat.lt_succ_of_le (hne t hnew)⟩
      apply hfresh t.start ((hcells _).mp ⟨t, hnew, hin⟩)
      exact ⟨c, List.mem_of_getElem? hc', hname, h₁,
        Nat.lt_succ_of_le (Nat.le_trans (hne t hnew) h₂)⟩
  · intro t ht hname
    rw [hregions] at ht
    rcases List.mem_append.mp ht with hold | hnew
    · exact h.bounded t hold hname
    · have hin := (hcells t.last).mp ⟨t, hnew, hne t hnew, Nat.lt_succ_self _⟩
      exact Nat.lt_trans hin.2 hstop
  · rw [hregions, sysramCells_append]
    congr 1
    ext x
    rw [← hcells x, mem_sysramCells]
    constructor
    · rintro ⟨r, hr, _, hx⟩
      exact ⟨r, hr, hx⟩
    · rintro ⟨r, hr, hx⟩
      exact ⟨r, hr, hcontained.named r hr, hx⟩

theorem sysramEntries_spec (attr : Nat) {todo : List Segment} (hsep : Separated todo)
    (hbounded : ∀ s ∈ todo, s.stop < paddrs) {sp : SysPage} (h : Kept sp)
    (hfresh : ∀ x ∈ cells todo, x ∉ sysramCells sp.regions)
    (hcovers : Covers sp.regions ramName (cells todo)) :
    Kept (sysramEntries attr todo sp) ∧
      sysramCells (sysramEntries attr todo sp).regions =
        sysramCells sp.regions ∪ cells todo := by
  induction todo generalizing sp with
  | nil =>
    refine ⟨h, ?_⟩
    rw [cells_nil, Set.union_empty]
    rfl
  | cons s todo ih =>
    obtain ⟨hpos, hgaps, hrest⟩ := separated_cons.mp hsep
    rw [cells_cons] at hfresh hcovers
    obtain ⟨sp', new, hcall, hkept, hregions, hcells⟩ := h.addSegment attr hpos
      (hbounded s (.head _)) (fun x hx => hfresh x (Or.inl hx)) fun x hx => hcovers x (Or.inl hx)
    have hapart : ∀ x ∈ cells todo, x ∉ s.cells := by
      rintro x ⟨t, ht, hx⟩ hx'
      have hless := hgaps t ht
      rw [Segment.cells, mem_range] at hx hx'
      omega
    have hnext : Covers sp'.regions ramName (cells todo) := by
      rw [hregions]
      exact Covers.append (fun x hx => hcovers x (Or.inr hx)) h.table.forest new
    have hfresh' : ∀ x ∈ cells todo, x ∉ sysramCells sp'.regions := by
      intro x hx hmem
      rw [hcells] at hmem
      rcases hmem with hmem | hmem
      · exact hfresh x (Or.inr hx) hmem
      · exact hapart x hx hmem
    obtain ⟨hkept', hcells'⟩ :=
      ih hrest (fun t ht => hbounded t (.tail _ ht)) hkept hfresh' hnext
    rw [sysramEntries, hcall]
    refine ⟨hkept', ?_⟩
    rw [hcells', hcells, cells_cons, Set.union_assoc]

end FridaCI.Startup
