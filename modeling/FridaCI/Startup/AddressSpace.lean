import FridaCI.Startup.Pieces
import FridaCI.Startup.Strings

/-!
# The address spaces of the board

startup/lib/as_add64.c, as_add.c, as_find_containing.c and as_add_containing.c: the table of
named address ranges in the system page. An entry lies within its owner, which has been added
before it. An offset into the table is the index of an entry here. A call has addresses of 32
bits; the entries have 64.
-/

namespace FridaCI.Startup
open Segments

set_option autoImplicit false

/-- `last` is the last address. AS_ATTR_CONTINUED and AS_ATTR_KIDS stand apart from the
attributes that the callers give. -/
structure AsEntry where
  start : Nat
  last : Nat
  attr : Nat
  owner : Option Nat
  name : Nat
  continued : Bool
  kids : Bool
  deriving DecidableEq

structure SysPage where
  strings : List Char
  asinfo : List AsEntry
  deriving DecidableEq

def SysPage.name (sp : SysPage) (e : AsEntry) : List Char := findString sp.strings e.name

/-! ## as_add -/

def addEntry (sp : SysPage) (start last attr : Nat) (continued : Bool) (name : List Char)
    (owner : Option Nat) : SysPage × Nat :=
  let (strings, off) := addString sp.strings name
  let asinfo := sp.asinfo ++ [⟨start, last, attr, owner, off, continued, false⟩]
  let asinfo :=
    match owner with
    | none => asinfo
    | some o => asinfo.modify o fun e => { e with kids := true }
  (⟨strings, asinfo⟩, sp.asinfo.length)

/-- `overlay` is AS_OVERLAY_IO, which adds the range once more under the name io. -/
def asAdd (sp : SysPage) (start last attr : Nat) (continued overlay : Bool) (name : List Char)
    (owner : Option Nat) : SysPage × Nat :=
  let (sp, off) := addEntry sp start last attr continued name owner
  if overlay then ((addEntry sp start last attr continued "io".toList (some off)).1, off)
  else (sp, off)

/-- as_default.c, with `paddr_bits` 32. -/
def asDefault (sp : SysPage) : SysPage × Nat :=
  asAdd sp 0 (paddrs - 1) 0 false false "memory".toList none

/-! ## as_find_containing -/

/-- The name of the entry or of one of its owners. -/
def matchName (sp : SysPage) (name : List Char) : Nat → AsEntry → Bool
  | 0, _ => false
  | fuel + 1, e =>
    if sp.name e = name then true
    else
      match e.owner with
      | none => false
      | some o =>
        match sp.asinfo[o]? with
        | none => false
        | some owner => matchName sp name fuel owner

def AsEntry.meets (e : AsEntry) (start last : Nat) : Bool :=
  (start ≥ e.start ∧ start ≤ e.last) ∨ (last ≥ e.start ∧ last ≤ e.last) ∨
    (start ≤ e.start ∧ last ≥ e.last)

/-- An owner is in front of its entries, so as many steps as there are entries are enough. -/
def within (sp : SysPage) (container : List Char) (e : AsEntry) : Bool :=
  matchName sp container (sp.asinfo.length + 1) e

/-- Where a search goes on. -/
def behind : Option Nat → Nat
  | none => 0
  | some o => o + 1

/-- The first entry behind `off`. -/
def asFindContaining (sp : SysPage) (off : Option Nat) (start last : Nat)
    (container : List Char) : Option Nat :=
  ((sp.asinfo.drop (behind off)).findIdx? fun e =>
    within sp container e && e.meets start last).map (· + behind off)

/-! ## as_add_containing -/

def AsEntry.piece (e : AsEntry) (start last owner : Nat) : AsRange :=
  ⟨if e.start > start then e.start else start, if e.last < last then e.last else last, owner⟩

def pieceLoop (sp : SysPage) (start last : Nat) (container : List Char) :
    Nat → Option Nat → List AsRange → List AsRange
  | 0, _, list => list
  | fuel + 1, off, list =>
    match asFindContaining sp off start last container with
    | none => list
    | some o =>
      match sp.asinfo[o]? with
      | none => list
      | some e => pieceLoop sp start last container fuel (some o)
          (insertPiece (e.piece start last o) list)

/-- The table has the pieces in the order of the list; empty ones are left out. -/
def addPieces (attr : Nat) (name : List Char) : List AsRange → SysPage → SysPage
  | [], sp => sp
  | r :: list, sp =>
    if r.start ≤ r.last then
      addPieces attr name list (asAdd sp r.start r.last attr true false name (some r.owner)).1
    else addPieces attr name list sp

/-- The pieces once more, each with the first one as its owner. -/
def overlayPieces (attr : Nat) (name : List Char) : Nat → Nat → SysPage → SysPage
  | 0, _, sp => sp
  | fuel + 1, off, sp =>
    match sp.asinfo[off]? with
    | none => sp
    | some e =>
      let sp := (asAdd sp e.start e.last attr false false name (some off)).1
      if e.continued then overlayPieces attr name fuel (off + 1) sp else sp

def asAddContaining (sp : SysPage) (start last attr : Nat) (overlay : Bool)
    (name container : List Char) : SysPage × Option Nat :=
  let list := pieceLoop sp start last container (sp.asinfo.length + 1) none []
  let added := addPieces attr name list sp
  if added.asinfo.length = sp.asinfo.length then (added, none)
  else
    let ended := { added with
      asinfo := added.asinfo.modify (added.asinfo.length - 1) fun e =>
        { e with continued := false } }
    if overlay then
      (overlayPieces attr name ended.asinfo.length sp.asinfo.length ended, sp.asinfo.length)
    else (ended, sp.asinfo.length)

/-! ## Regions

What the entries say, without the offsets of their names and without their marks. -/

structure Region where
  start : Nat
  last : Nat
  owner : Option Nat
  name : List Char
  deriving DecidableEq

def Region.cells (r : Region) : Set Nat := range r.start (r.last + 1)

def SysPage.region (sp : SysPage) (e : AsEntry) : Region := ⟨e.start, e.last, e.owner, sp.name e⟩

def SysPage.regions (sp : SysPage) : List Region := sp.asinfo.map sp.region

/-- A region that has a name, or an owner of it. -/
inductive Within (rs : List Region) (container : List Char) : Region → Prop where
  | self {r : Region} (h : r.name = container) : Within rs container r
  | owner {r owner : Region} {o : Nat} (ho : r.owner = some o) (hr : rs[o]? = some owner)
      (h : Within rs container owner) : Within rs container r

/-- Owners come first and are not smaller. -/
structure Forest (rs : List Region) : Prop where
  nonempty : ∀ r ∈ rs, r.start ≤ r.last
  owned : ∀ (i : Nat) (r : Region) (o : Nat), rs[i]? = some r → r.owner = some o →
    o < i ∧ ∃ owner, rs[o]? = some owner ∧ owner.start ≤ r.start ∧ r.last ≤ owner.last

theorem within_append {rs : List Region} (h : Forest rs) (new : List Region)
    {container : List Char} {i : Nat} {r : Region} (hr : rs[i]? = some r) :
    Within (rs ++ new) container r ↔ Within rs container r := by
  induction i using Nat.strong_induction_on generalizing r with
  | _ i ih =>
    have hsame : ∀ o, r.owner = some o → (rs ++ new)[o]? = rs[o]? := by
      intro o ho
      obtain ⟨_, owner, howner, _⟩ := h.owned i r o hr ho
      rw [List.getElem?_append_left (List.getElem?_eq_some_iff.mp howner).1]
    constructor
    · intro hw
      cases hw with
      | self hname => exact .self hname
      | owner ho howner hw =>
        rw [hsame _ ho] at howner
        exact .owner ho howner ((ih _ (h.owned i r _ hr ho).1 howner).mp hw)
    · intro hw
      cases hw with
      | self hname => exact .self hname
      | owner ho howner hw =>
        refine .owner ho (by rw [hsame _ ho, howner]) ?_
        exact (ih _ (h.owned i r _ hr ho).1 howner).mpr hw

theorem Forest.append {rs : List Region} (h : Forest rs) {r : Region} (hr : r.start ≤ r.last)
    (howner : ∀ o, r.owner = some o → ∃ owner, rs[o]? = some owner ∧ owner.start ≤ r.start ∧
      r.last ≤ owner.last) : Forest (rs ++ [r]) := by
  have hkeep : ∀ {o : Nat} {owner : Region}, rs[o]? = some owner →
      (rs ++ [r])[o]? = some owner := by
    intro o owner ho
    rw [List.getElem?_append_left (List.getElem?_eq_some_iff.mp ho).1, ho]
  constructor
  · intro t ht
    rcases List.mem_append.mp ht with ht | ht
    · exact h.nonempty t ht
    · rw [List.mem_singleton.mp ht]
      exact hr
  · intro i t o ht ho
    rcases Nat.lt_or_ge i rs.length with hlt | hge
    · rw [List.getElem?_append_left hlt] at ht
      obtain ⟨hless, owner, hfound, hin⟩ := h.owned i t o ht ho
      exact ⟨hless, owner, hkeep hfound, hin⟩
    · rw [List.getElem?_append_right hge] at ht
      obtain ⟨hi, rfl⟩ := List.getElem?_eq_some_iff.mp ht
      simp only [List.length_singleton, Nat.lt_one_iff] at hi
      simp only [hi, List.getElem_cons_zero] at ho ⊢
      obtain ⟨owner, hfound, hin⟩ := howner o ho
      have hless := (List.getElem?_eq_some_iff.mp hfound).1
      exact ⟨by omega, owner, hkeep hfound, hin⟩

/-! ## The table as regions -/

/-- Each name of the table is a string of the section. -/
def Interned (sp : SysPage) : Prop :=
  ∃ l, Packed l sp.strings ∧ ∀ e ∈ sp.asinfo, ∃ s, StoredAt l s e.name

theorem map_modify {β : Type} (g : AsEntry → β) (l : List AsEntry) (i : Nat)
    {f : AsEntry → AsEntry} (hf : ∀ e, g (f e) = g e) : (l.modify i f).map g = l.map g := by
  apply List.ext_getElem?
  intro j
  rw [List.getElem?_map, List.getElem?_map, List.getElem?_modify]
  cases l[j]? with
  | none => rfl
  | some e =>
    by_cases h : i = j
    · simp [h, hf]
    · simp [h]

/-- A mark changes no name. -/
theorem Interned.modify {sp : SysPage} (h : Interned sp) (i : Nat) {f : AsEntry → AsEntry}
    (hf : ∀ e, (f e).name = e.name) : Interned { sp with asinfo := sp.asinfo.modify i f } := by
  obtain ⟨l, hp, hall⟩ := h
  refine ⟨l, hp, ?_⟩
  intro e he
  obtain ⟨j, hj⟩ := List.mem_iff_getElem?.mp he
  dsimp only at hj
  rw [List.getElem?_modify] at hj
  obtain ⟨e', he', heq⟩ := Option.map_eq_some_iff.mp hj
  have hname : e.name = e'.name := by
    rw [← heq]
    split
    · exact hf e'
    · rfl
  rw [hname]
  exact hall e' (List.mem_of_getElem? he')

/-- Which entries are continued by the next one. -/
def SysPage.continues (sp : SysPage) : List Bool := sp.asinfo.map AsEntry.continued

theorem addEntry_spec {sp : SysPage} (h : Interned sp) (start last attr : Nat) (continued : Bool)
    {name : List Char} (hname : name ≠ [] ∧ IsString name) (owner : Option Nat) :
    ∃ sp', addEntry sp start last attr continued name owner = (sp', sp.asinfo.length) ∧
      Interned sp' ∧ sp'.regions = sp.regions ++ [⟨start, last, owner, name⟩] ∧
      sp'.continues = sp.continues ++ [continued] := by
  obtain ⟨l, hp, hall⟩ := h
  obtain ⟨l', strings, off, hadd, hp', hstored⟩ := addString_spec hp hname
  have hfind : ∀ e ∈ sp.asinfo, findString strings e.name = findString sp.strings e.name := by
    intro e he
    obtain ⟨s, hs⟩ := hall e he
    rw [(hs.append l').findString hp', hs.findString hp]
  let entry : AsEntry := ⟨start, last, attr, owner, off, continued, false⟩
  have hregions : (sp.asinfo ++ [entry]).map (SysPage.region ⟨strings, sp.asinfo⟩) =
      sp.regions ++ [⟨start, last, owner, name⟩] := by
    rw [List.map_append, List.map_singleton]
    congr 1
    · apply List.map_congr_left
      intro e he
      rw [SysPage.region, SysPage.region, SysPage.name, SysPage.name, hfind e he]
    · rw [SysPage.region, SysPage.name, hstored.findString hp']
  have hcontinues : (sp.asinfo ++ [entry]).map AsEntry.continued = sp.continues ++ [continued] := by
    rw [List.map_append]
    rfl
  have hmem : ∀ e ∈ sp.asinfo ++ [entry], ∃ s, StoredAt (l ++ l') s e.name := by
    intro e he
    rcases List.mem_append.mp he with he | he
    · obtain ⟨s, hs⟩ := hall e he
      exact ⟨s, hs.append l'⟩
    · rw [List.mem_singleton.mp he]
      exact ⟨name, hstored⟩
  rw [addEntry, hadd]
  cases owner with
  | none => exact ⟨_, rfl, ⟨_, hp', hmem⟩, hregions, hcontinues⟩
  | some o =>
    have hinterned : Interned ⟨strings, sp.asinfo ++ [entry]⟩ := ⟨_, hp', hmem⟩
    let mark : AsEntry → AsEntry := fun e => { e with kids := true }
    refine ⟨_, rfl, @Interned.modify _ hinterned o mark fun _ => rfl, ?_, ?_⟩
    · exact (@map_modify _ (SysPage.region ⟨strings, []⟩) _ o mark fun _ => rfl).trans hregions
    · exact (@map_modify _ AsEntry.continued _ o mark fun _ => rfl).trans hcontinues

theorem regions_getElem? (sp : SysPage) (i : Nat) :
    sp.regions[i]? = (sp.asinfo[i]?).map sp.region := List.getElem?_map

theorem matchName_iff {sp : SysPage} (h : Forest sp.regions) (container : List Char) {fuel i : Nat}
    {e : AsEntry} (he : sp.asinfo[i]? = some e) (hfuel : i < fuel) :
    matchName sp container fuel e = true ↔ Within sp.regions container (sp.region e) := by
  induction fuel generalizing i e with
  | zero => exact absurd hfuel (Nat.not_lt_zero i)
  | succ fuel ih =>
    have hregion : sp.regions[i]? = some (sp.region e) := by rw [regions_getElem?, he]; rfl
    rw [matchName]
    split
    · next hname =>
      exact iff_of_true rfl (.self hname)
    · next hname =>
      cases ho : e.owner with
      | none =>
        refine iff_of_false Bool.false_ne_true ?_
        intro hw
        cases hw with
        | self hself => exact hname hself
        | owner howner => 
          change e.owner = _ at howner
          rw [ho] at howner
          cases howner
      | some o =>
        obtain ⟨hless, owner, howner, _⟩ := h.owned i _ o hregion ho
        rw [regions_getElem?] at howner
        obtain ⟨e', he', rfl⟩ := Option.map_eq_some_iff.mp howner
        dsimp only
        rw [he']
        dsimp only
        rw [ih he' (by omega)]
        constructor
        · intro hw
          exact .owner (r := sp.region e) ho (by rw [regions_getElem?, he']; rfl) hw
        · intro hw
          cases hw with
          | self hself => exact absurd hself hname
          | owner ho' hr hw =>
            change e.owner = _ at ho'
            rw [ho] at ho'
            cases ho'
            rw [regions_getElem?, he'] at hr
            cases hr
            exact hw

theorem within_iff {sp : SysPage} (h : Forest sp.regions) (container : List Char) {i : Nat}
    {e : AsEntry} (he : sp.asinfo[i]? = some e) :
    within sp container e = true ↔ Within sp.regions container (sp.region e) := by
  apply matchName_iff h container he
  have hlt := (List.getElem?_eq_some_iff.mp he).1
  omega

/-! ## The search in one pass -/

section Pass
variable (sp : SysPage) (start last : Nat) (container : List Char)

def AsEntry.hit (e : AsEntry) : Bool := within sp container e && e.meets start last

/-- The loop of as_add_containing as a pass over the entries from the index `i` on. -/
def passPieces : List AsEntry → Nat → List AsRange → List AsRange
  | [], _, list => list
  | e :: rest, i, list =>
    passPieces rest (i + 1)
      (if e.hit sp start last container then insertPiece (e.piece start last i) list else list)

variable {sp start last container}

theorem passPieces_skip {before : List AsEntry}
    (h : ∀ e ∈ before, e.hit sp start last container = false) (rest : List AsEntry) (i : Nat)
    (list : List AsRange) :
    passPieces sp start last container (before ++ rest) i list =
      passPieces sp start last container rest (i + before.length) list := by
  induction before generalizing i with
  | nil => rfl
  | cons e before ih =>
    rw [List.cons_append, passPieces, h e (.head _), if_neg Bool.false_ne_true,
      ih (fun t ht => h t (.tail _ ht)), List.length_cons]
    congr 1
    omega

theorem pieceLoop_eq {fuel : Nat} {off : Option Nat} (list : List AsRange)
    (hfuel : sp.asinfo.length < fuel + behind off) :
    pieceLoop sp start last container fuel off list =
      passPieces sp start last container (sp.asinfo.drop (behind off)) (behind off) list := by
  induction fuel generalizing off list with
  | zero =>
    have hnil : sp.asinfo.drop (behind off) = [] := List.drop_eq_nil_iff.mpr (by omega)
    rw [hnil]
    rfl
  | succ fuel ih =>
    rw [pieceLoop, asFindContaining]
    cases hfind : (sp.asinfo.drop (behind off)).findIdx? fun e =>
        within sp container e && e.meets start last with
    | none =>
      have hnone := List.findIdx?_eq_none_iff.mp hfind
      have hskip := passPieces_skip hnone [] (behind off) list
      rw [List.append_nil] at hskip
      rw [hskip]
      rfl
    | some j =>
      obtain ⟨hj, hhit, hbefore⟩ := List.findIdx?_eq_some_iff_getElem.mp hfind
      have hget : sp.asinfo[j + behind off]? = some (sp.asinfo.drop (behind off))[j] := by
        rw [← List.getElem?_eq_getElem hj, List.getElem?_drop, Nat.add_comm]
      generalize he : (sp.asinfo.drop (behind off))[j] = e at hget hhit
      have hsplit : sp.asinfo.drop (behind off) =
          (sp.asinfo.drop (behind off)).take j ++
            e :: sp.asinfo.drop (behind (some (j + behind off))) := by
        have hdrop : sp.asinfo.drop (behind (some (j + behind off))) =
            (sp.asinfo.drop (behind off)).drop (j + 1) := by
          rw [List.drop_drop]
          congr 1
          change j + behind off + 1 = _
          omega
        rw [hdrop, ← he, ← List.drop_eq_getElem_cons hj, List.take_append_drop]
      have hmiss : ∀ t ∈ (sp.asinfo.drop (behind off)).take j,
          t.hit sp start last container = false := by
        intro t ht
        obtain ⟨k, hk, rfl⟩ := List.mem_iff_getElem.mp ht
        rw [List.length_take] at hk
        rw [List.getElem_take]
        have hfalse := hbefore k (by omega)
        rwa [Bool.not_eq_true] at hfalse
      have hlength : ((sp.asinfo.drop (behind off)).take j).length = j := by
        rw [List.length_take]
        omega
      dsimp only [Option.map_some]
      rw [hget]
      dsimp only
      rw [ih _ (by change _ < fuel + (j + behind off + 1); omega)]
      conv_rhs => rw [hsplit]
      rw [passPieces_skip hmiss, hlength, passPieces, AsEntry.hit, hhit, if_pos rfl]
      congr 1
      · change j + behind off + 1 = _
        omega
      · rw [Nat.add_comm]

/-- A part of an entry in the container, and of the range that is added. -/
def PartOf (sp : SysPage) (start last : Nat) (container : List Char) (o a b : Nat) : Prop :=
  ∃ e, sp.asinfo[o]? = some e ∧ within sp container e = true ∧ e.start ≤ a ∧ b ≤ e.last ∧
    start ≤ a ∧ b ≤ last

theorem partOf_shrinks : Shrinks (PartOf sp start last container) := by
  intro o a b a' b' ⟨e, he, hin, ha, hb, hstart, hlast⟩ ha' hb'
  exact ⟨e, he, hin, by omega, by omega, by omega, by omega⟩

theorem meets_iff {e : AsEntry} (hle : start ≤ last) (he : e.start ≤ e.last) :
    e.meets start last = true ↔
      (e.piece start last 0).start ≤ (e.piece start last 0).last := by
  unfold AsEntry.meets AsEntry.piece
  simp only [decide_eq_true_eq]
  split <;> split <;> omega

theorem piece_cells (e : AsEntry) (start last i x : Nat) : x ∈ (e.piece start last i).cells ↔
    start ≤ x ∧ x ≤ last ∧ e.start ≤ x ∧ x ≤ e.last := by
  rw [AsRange.cells, mem_range]
  unfold AsEntry.piece
  dsimp only
  split <;> split <;> omega

theorem passPieces_spec (hle : start ≤ last) (hlast : last + 1 < paddrs) {l : List AsEntry}
    {i : Nat} (hl : ∀ (j : Nat) (e : AsEntry), l[j]? = some e → sp.asinfo[i + j]? = some e)
    (hne : ∀ e ∈ l, e.start ≤ e.last) {list : List AsRange}
    (held : Held (PartOf sp start last container) list) :
    (∀ x, x ∈ pieceCells (passPieces sp start last container l i list) ↔
        x ∈ pieceCells list ∨ (start ≤ x ∧ x ≤ last ∧
          ∃ e ∈ l, within sp container e = true ∧ e.start ≤ x ∧ x ≤ e.last)) ∧
      Held (PartOf sp start last container) (passPieces sp start last container l i list) := by
  induction l generalizing i list with
  | nil =>
    refine ⟨?_, held⟩
    intro x
    simp [passPieces]
  | cons e l ih =>
    have hnext : ∀ (j : Nat) (t : AsEntry), l[j]? = some t → sp.asinfo[i + 1 + j]? = some t := by
      intro j t ht
      have h := hl (j + 1) t ht
      rwa [Nat.add_assoc, Nat.add_comm 1 j]
    have hrest := fun t ht => hne t (List.mem_cons_of_mem e ht)
    have hmeets := meets_iff hle (hne e (.head _))
    have hpiece := piece_cells e start last i
    rw [passPieces]
    by_cases hhit : e.hit sp start last container = true
    · obtain ⟨hin, hmeet⟩ := Bool.and_eq_true_iff.mp hhit
      have hle' : (e.piece start last i).start ≤ (e.piece start last i).last := hmeets.mp hmeet
      have hbounds : (e.piece start last i).last ≤ last ∧ (e.piece start last i).last ≤ e.last ∧
          start ≤ (e.piece start last i).start ∧ e.start ≤ (e.piece start last i).start := by
        unfold AsEntry.piece
        dsimp only
        split <;> split <;> omega
      have hgood : PartOf sp start last container i (e.piece start last i).start
          (e.piece start last i).last :=
        ⟨e, hl 0 e rfl, hin, hbounds.2.2.2, hbounds.2.1, hbounds.2.2.1, hbounds.1⟩
      have hheld := held_insertPiece partOf_shrinks hle' (by omega) hgood held
      obtain ⟨hcells, hend⟩ := ih hnext hrest hheld
      rw [if_pos hhit]
      refine ⟨?_, hend⟩
      intro x
      rw [hcells x, cells_insertPiece hle' (by omega), Set.mem_union, hpiece x,
        List.exists_mem_cons_iff]
      constructor
      · rintro ((⟨h₁, h₂, h₃⟩ | h) | ⟨h₁, h₂, h⟩)
        · exact Or.inr ⟨h₁, h₂, Or.inl ⟨hin, h₃⟩⟩
        · exact Or.inl h
        · exact Or.inr ⟨h₁, h₂, Or.inr h⟩
      · rintro (h | ⟨h₁, h₂, ⟨_, h₃⟩ | h⟩)
        · exact Or.inl (Or.inr h)
        · exact Or.inl (Or.inl ⟨h₁, h₂, h₃⟩)
        · exact Or.inr ⟨h₁, h₂, h⟩
    · rw [if_neg hhit]
      obtain ⟨hcells, hend⟩ := ih hnext hrest held
      refine ⟨?_, hend⟩
      intro x
      rw [hcells x, List.exists_mem_cons_iff]
      constructor
      · rintro (h | ⟨h₁, h₂, h⟩)
        · exact Or.inl h
        · exact Or.inr ⟨h₁, h₂, Or.inr h⟩
      · rintro (h | ⟨h₁, h₂, ⟨hin, h₃⟩ | h⟩)
        · exact Or.inl h
        · have hmeet : e.meets start last = true := by
            rw [hmeets]
            have hx := (hpiece x).mpr ⟨h₁, h₂, h₃⟩
            rw [AsRange.cells, mem_range] at hx
            exact Nat.le_trans hx.1 (Nat.le_of_lt_succ hx.2)
          exact absurd (Bool.and_eq_true_iff.mpr ⟨hin, hmeet⟩) hhit
        · exact Or.inr ⟨h₁, h₂, h⟩

end Pass

/-! ## as_add_containing -/

structure Table (sp : SysPage) : Prop where
  interned : Interned sp
  forest : Forest sp.regions

/-- The owner that a caller names has the range. -/
def Owned (sp : SysPage) (owner : Option Nat) (start last : Nat) : Prop :=
  ∀ o, owner = some o → ∃ r, sp.regions[o]? = some r ∧ r.start ≤ start ∧ last ≤ r.last

theorem Table.addEntry {sp : SysPage} (h : Table sp) {start last : Nat} (attr : Nat)
    (continued : Bool) {name : List Char} (hname : name ≠ [] ∧ IsString name) {owner : Option Nat}
    (hle : start ≤ last) (howner : Owned sp owner start last) :
    ∃ sp', addEntry sp start last attr continued name owner = (sp', sp.asinfo.length) ∧
      Table sp' ∧ sp'.regions = sp.regions ++ [⟨start, last, owner, name⟩] ∧
      sp'.continues = sp.continues ++ [continued] := by
  obtain ⟨sp', hadd, hinterned, hregions, hcontinues⟩ :=
    addEntry_spec h.interned start last attr continued hname owner
  refine ⟨sp', hadd, ⟨hinterned, ?_⟩, hregions, hcontinues⟩
  rw [hregions]
  exact h.forest.append hle howner

def AsRange.region (name : List Char) (r : AsRange) : Region := ⟨r.start, r.last, some r.owner, name⟩

def newRegions (name : List Char) (list : List AsRange) : List Region :=
  (list.filter fun r => r.start ≤ r.last).map (AsRange.region name)

theorem addPieces_spec (attr : Nat) {name : List Char} (hname : name ≠ [] ∧ IsString name)
    {list : List AsRange} {sp : SysPage} (h : Table sp)
    (howner : ∀ r ∈ list, r.start ≤ r.last → Owned sp (some r.owner) r.start r.last) :
    Table (addPieces attr name list sp) ∧
      (addPieces attr name list sp).regions = sp.regions ++ newRegions name list ∧
      (addPieces attr name list sp).continues =
        sp.continues ++ List.replicate (newRegions name list).length true := by
  induction list generalizing sp with
  | nil => exact ⟨h, (List.append_nil _).symm, (List.append_nil _).symm⟩
  | cons r list ih =>
    rw [addPieces]
    split
    · next hle =>
      obtain ⟨sp', hadd, hsp', hregions, hcontinues⟩ :=
        h.addEntry attr true hname hle (howner r (.head _) hle)
      have hlater : ∀ t ∈ list, t.start ≤ t.last → Owned sp' (some t.owner) t.start t.last := by
        intro t ht hle' o ho
        obtain ⟨c, hc, hin⟩ := howner t (.tail _ ht) hle' o ho
        refine ⟨c, ?_, hin⟩
        rw [hregions, List.getElem?_append_left (List.getElem?_eq_some_iff.mp hc).1, hc]
      obtain ⟨htable, hend, hmarks⟩ := ih hsp' hlater
      have hstep : (asAdd sp r.start r.last attr true false name (some r.owner)).1 = sp' := by
        rw [asAdd, hadd]
        rfl
      have hnew : newRegions name (r :: list) = r.region name :: newRegions name list := by
        rw [newRegions, List.filter_cons_of_pos (by simpa using hle)]
        rfl
      rw [hstep, hnew]
      refine ⟨htable, ?_, ?_⟩
      · rw [hend, hregions, List.append_assoc]
        rfl
      · rw [hmarks, hcontinues, List.append_assoc, List.length_cons, List.replicate_succ]
        rfl
    · next hempty =>
      have hnew : newRegions name (r :: list) = newRegions name list := by
        rw [newRegions, List.filter_cons_of_neg (by simpa using hempty)]
        rfl
      rw [hnew]
      exact ih h fun t ht => howner t (.tail _ ht)

theorem mem_newRegions {name : List Char} {list : List AsRange} {t : Region} :
    t ∈ newRegions name list ↔ ∃ r ∈ list, r.start ≤ r.last ∧ r.region name = t := by
  simp [newRegions, and_assoc]

theorem length_regions (sp : SysPage) : sp.regions.length = sp.asinfo.length := List.length_map _

/-- What a call adds, and where: the part of the range that the container has. -/
structure Contained (sp : SysPage) (start last : Nat) (name container : List Char)
    (new : List Region) : Prop where
  named : ∀ r ∈ new, r.name = name
  owned : ∀ r ∈ new, ∃ o c, r.owner = some o ∧ sp.regions[o]? = some c ∧
    Within sp.regions container c
  covers : ∀ x, (∃ r ∈ new, x ∈ r.cells) ↔ start ≤ x ∧ x ≤ last ∧
    ∃ c ∈ sp.regions, Within sp.regions container c ∧ x ∈ c.cells

/-- The regions once more, each with the first one, at the index `off` or behind it, as its
owner. -/
def overlays : Nat → List Region → List Region
  | _, [] => []
  | off, r :: rest => { r with owner := some off } :: overlays (off + 1) rest

theorem overlayPieces_spec (attr : Nat) {name : List Char} (hname : name ≠ [] ∧ IsString name)
    {rest : List Region} (hrest : ∀ r ∈ rest, r.name = name) {fuel off : Nat} {sp : SysPage}
    (h : Table sp) (hne : rest ≠ []) (hfuel : rest.length ≤ fuel)
    (hat : ∀ (j : Nat) (r : Region), rest[j]? = some r → sp.regions[off + j]? = some r ∧
      sp.continues[off + j]? = some (decide (j + 1 < rest.length))) :
    Table (overlayPieces attr name fuel off sp) ∧
      (overlayPieces attr name fuel off sp).regions = sp.regions ++ overlays off rest := by
  induction rest generalizing fuel off sp with
  | nil => exact absurd rfl hne
  | cons r rest ih =>
    obtain ⟨fuel, rfl⟩ : ∃ n, fuel = n + 1 :=
      ⟨fuel - 1, by rw [List.length_cons] at hfuel; omega⟩
    obtain ⟨hregion, hmark⟩ := hat 0 r rfl
    rw [Nat.add_zero] at hregion hmark
    have hfound := hregion
    rw [regions_getElem?] at hregion
    obtain ⟨e, he, rfl⟩ := Option.map_eq_some_iff.mp hregion
    have hcontinued : e.continued = decide (1 < rest.length + 1) := by
      rw [SysPage.continues, List.getElem?_map, he] at hmark
      exact Option.some.inj hmark
    have hle : e.start ≤ e.last := h.forest.nonempty _ (List.mem_of_getElem? hfound)
    have howner : Owned sp (some off) e.start e.last := by
      intro o ho
      cases ho
      exact ⟨sp.region e, hfound, Nat.le_refl _, Nat.le_refl _⟩
    obtain ⟨sp', hadd, hsp', hregions, hcontinues⟩ :=
      h.addEntry attr false hname hle howner
    have hstep : asAdd sp e.start e.last attr false false name (some off) =
        (sp', sp.asinfo.length) := by
      rw [asAdd, hadd]
      rfl
    have hfirst : overlays off (sp.region e :: rest) =
        ⟨e.start, e.last, some off, name⟩ :: overlays (off + 1) rest := by
      rw [overlays, hrest _ (.head _)]
      rfl
    rw [overlayPieces, he]
    dsimp only
    rw [hstep, hfirst]
    split
    · next hmore =>
      rw [hcontinued, decide_eq_true_eq] at hmore
      have hnext : ∀ (j : Nat) (t : Region), rest[j]? = some t →
          sp'.regions[off + 1 + j]? = some t ∧
            sp'.continues[off + 1 + j]? = some (decide (j + 1 < rest.length)) := by
        intro j t ht
        obtain ⟨hr, hc⟩ := hat (j + 1) t ht
        rw [Nat.add_assoc, Nat.add_comm 1 j, hregions, hcontinues]
        constructor
        · rw [List.getElem?_append_left (List.getElem?_eq_some_iff.mp hr).1, hr]
        · rw [List.getElem?_append_left (List.getElem?_eq_some_iff.mp hc).1, hc, List.length_cons]
          simp only [Nat.add_lt_add_iff_right]
      rw [List.length_cons] at hfuel
      obtain ⟨htable, hend⟩ := @ih (fun t ht => hrest t (.tail _ ht)) fuel (off + 1) sp' hsp'
        (List.ne_nil_of_length_pos (by omega)) (by omega) hnext
      refine ⟨htable, ?_⟩
      rw [hend, hregions, List.append_assoc]
      rfl
    · next hlast =>
      rw [hcontinued, decide_eq_true_eq] at hlast
      obtain rfl : rest = [] := List.eq_nil_of_length_eq_zero (by omega)
      exact ⟨hsp', hregions⟩

theorem pieceLoop_contained {sp : SysPage} (h : Table sp) {start last : Nat} (name : List Char)
    (container : List Char) (hle : start ≤ last) (hlast : last + 1 < paddrs) {list : List AsRange}
    (hlist : pieceLoop sp start last container (sp.asinfo.length + 1) none [] = list) :
    (∀ r ∈ list, r.start ≤ r.last → Owned sp (some r.owner) r.start r.last) ∧
      Contained sp start last name container (newRegions name list) := by
  have hloop := @pieceLoop_eq sp start last container (sp.asinfo.length + 1) none []
    (by change _ < _ + 0; omega)
  have hne : ∀ e ∈ sp.asinfo, e.start ≤ e.last := by
    intro e he
    exact h.forest.nonempty (sp.region e) (List.mem_map_of_mem he)
  obtain ⟨hcells, hheld⟩ := @passPieces_spec sp start last container hle hlast sp.asinfo 0
    (fun j e he => by rwa [Nat.zero_add]) hne [] (fun r hr => absurd hr List.not_mem_nil)
  rw [behind, List.drop_zero, hlist] at hloop
  rw [← hloop] at hcells hheld
  constructor
  · intro r hr hr' o ho
    cases ho
    obtain ⟨e, he, _, ha, hb, _⟩ := hheld r hr hr'
    exact ⟨sp.region e, by rw [regions_getElem?, he]; rfl, ha, hb⟩
  · constructor
    · intro t ht
      obtain ⟨r, _, _, rfl⟩ := mem_newRegions.mp ht
      rfl
    · intro t ht
      obtain ⟨r, hr, hr', rfl⟩ := mem_newRegions.mp ht
      obtain ⟨e, he, hin, _⟩ := hheld r hr hr'
      exact ⟨r.owner, sp.region e, rfl, by rw [regions_getElem?, he]; rfl,
        (within_iff h.forest container he).mp hin⟩
    · intro x
      have hsplit : (∃ t ∈ newRegions name list, x ∈ t.cells) ↔ x ∈ pieceCells list := by
        constructor
        · rintro ⟨t, ht, hx⟩
          obtain ⟨r, hr, _, rfl⟩ := mem_newRegions.mp ht
          exact ⟨r, hr, hx⟩
        · rintro ⟨r, hr, hx⟩
          have hr' : r.start ≤ r.last := by
            rw [AsRange.cells, mem_range] at hx
            omega
          exact ⟨r.region name, mem_newRegions.mpr ⟨r, hr, hr', rfl⟩, hx⟩
      have hentries : (∃ e ∈ sp.asinfo, within sp container e = true ∧ e.start ≤ x ∧ x ≤ e.last) ↔
          ∃ c ∈ sp.regions, Within sp.regions container c ∧ x ∈ c.cells := by
        constructor
        · rintro ⟨e, he, hin, hx⟩
          obtain ⟨i, hi⟩ := List.mem_iff_getElem?.mp he
          exact ⟨sp.region e, List.mem_map_of_mem he, (within_iff h.forest container hi).mp hin,
            hx.1, Nat.lt_succ_of_le hx.2⟩
        · rintro ⟨c, hc, hin, hx⟩
          obtain ⟨e, he, rfl⟩ := List.mem_map.mp hc
          obtain ⟨i, hi⟩ := List.mem_iff_getElem?.mp he
          exact ⟨e, he, (within_iff h.forest container hi).mpr hin, hx.1, Nat.le_of_lt_succ hx.2⟩
      rw [hsplit, hcells x, hentries, pieceCells_nil]
      simp

/-- The table after as_add_containing has the pieces of the list, and their overlays. -/
theorem asAddContaining_list {sp : SysPage} (h : Table sp) {start last : Nat} (attr : Nat)
    (overlay : Bool) {name : List Char} (container : List Char)
    (hname : name ≠ [] ∧ IsString name) {list : List AsRange} {new : List Region}
    (hlist : pieceLoop sp start last container (sp.asinfo.length + 1) none [] = list)
    (hnew : newRegions name list = new)
    (howner : ∀ r ∈ list, r.start ≤ r.last → Owned sp (some r.owner) r.start r.last) :
    ∃ sp', asAddContaining sp start last attr overlay name container =
        (sp', if new = [] then none else some sp.asinfo.length) ∧ Table sp' ∧
      sp'.regions = sp.regions ++ (new ++ if overlay then overlays sp.asinfo.length new else []) := by
  obtain ⟨htable, hregions, hcontinues⟩ := addPieces_spec attr hname h howner
  rw [hnew] at hregions hcontinues
  have hnames : ∀ r ∈ new, r.name = name := by
    intro t ht
    rw [← hnew] at ht
    obtain ⟨r, _, _, rfl⟩ := mem_newRegions.mp ht
    rfl
  have hlength : (addPieces attr name list sp).asinfo.length = sp.asinfo.length + new.length := by
    rw [← length_regions, hregions, List.length_append, length_regions]
  unfold asAddContaining
  rw [hlist]
  dsimp only
  generalize addPieces attr name list sp = added at *
  split
  · next hsame =>
    obtain rfl : new = [] := List.eq_nil_of_length_eq_zero (by omega)
    refine ⟨added, rfl, htable, ?_⟩
    rw [hregions]
    cases overlay <;> rfl
  · next hmore =>
    have hne : new ≠ [] := by
      intro hnil
      apply hmore
      rw [hlength, hnil]
      rfl
    let unmark : AsEntry → AsEntry := fun e => { e with continued := false }
    let ended : SysPage := ⟨added.strings, added.asinfo.modify (added.asinfo.length - 1) unmark⟩
    have hended : ended.regions = added.regions :=
      @map_modify _ added.region added.asinfo _ unmark fun _ => rfl
    have htable' : Table ended := by
      constructor
      · exact @Interned.modify _ htable.interned _ unmark fun _ => rfl
      · rw [hended]
        exact htable.forest
    rw [if_neg hne]
    cases overlay with
    | false =>
      refine ⟨ended, rfl, htable', ?_⟩
      rw [hended, hregions, if_neg Bool.false_ne_true, List.append_nil]
    | true =>
      have hat : ∀ (j : Nat) (r : Region), new[j]? = some r →
          ended.regions[sp.asinfo.length + j]? = some r ∧
            ended.continues[sp.asinfo.length + j]? = some (decide (j + 1 < new.length)) := by
        intro j r hr
        have hj := (List.getElem?_eq_some_iff.mp hr).1
        have hmark : added.continues[sp.asinfo.length + j]? = some true := by
          rw [hcontinues, List.getElem?_append_right (by simp [SysPage.continues])]
          rw [List.getElem?_replicate, if_pos (by simp [SysPage.continues, hj])]
        constructor
        · rw [hended, hregions, List.getElem?_append_right (by rw [length_regions]; omega),
            length_regions, Nat.add_sub_cancel_left, hr]
        · rw [SysPage.continues, List.getElem?_map] at hmark ⊢
          obtain ⟨e, he, hcontinued⟩ := Option.map_eq_some_iff.mp hmark
          rw [List.getElem?_modify, he, hlength]
          dsimp only [Option.map_eq_map, Option.map_some]
          by_cases hend : j + 1 < new.length
          · rw [if_neg (by omega), hcontinued, decide_eq_true hend]
          · rw [if_pos (by omega), decide_eq_false hend]
      have hfuel : new.length ≤ ended.asinfo.length := by
        rw [← length_regions, hended, length_regions]
        omega
      obtain ⟨htable'', hregions''⟩ := overlayPieces_spec attr hname hnames htable' hne hfuel hat
      refine ⟨_, rfl, htable'', ?_⟩
      rw [hregions'', hended, hregions, List.append_assoc]
      rfl

theorem asAddContaining_spec {sp : SysPage} (h : Table sp) {start last : Nat} (attr : Nat)
    (overlay : Bool) {name : List Char} (container : List Char)
    (hname : name ≠ [] ∧ IsString name) (hle : start ≤ last) (hlast : last + 1 < paddrs) :
    ∃ sp' new, asAddContaining sp start last attr overlay name container =
        (sp', if new = [] then none else some sp.asinfo.length) ∧ Table sp' ∧
      sp'.regions = sp.regions ++ (new ++ if overlay then overlays sp.asinfo.length new else []) ∧
      Contained sp start last name container new := by
  obtain ⟨howner, hcontained⟩ := pieceLoop_contained h name container hle hlast rfl
  obtain ⟨sp', hcall, htable, hregions⟩ :=
    asAddContaining_list h attr overlay container hname rfl rfl howner
  exact ⟨sp', _, hcall, htable, hregions, hcontained⟩

/-! ## Runs -/

def emptyPage : SysPage := ⟨noStrings, []⟩

/-- A call for a range that is not empty. A range that goes into a container ends in front of the
last address of 32 bits. -/
inductive AsCall : SysPage → SysPage → Prop where
  | add {sp : SysPage} {start last attr : Nat} {continued overlay : Bool} {name : List Char}
      {owner : Option Nat} (hname : name ≠ [] ∧ IsString name) (hle : start ≤ last)
      (howner : Owned sp owner start last) :
      AsCall sp (asAdd sp start last attr continued overlay name owner).1
  | addContaining {sp : SysPage} {start last attr : Nat} {overlay : Bool}
      {name container : List Char} (hname : name ≠ [] ∧ IsString name) (hle : start ≤ last)
      (hlast : last + 1 < paddrs) :
      AsCall sp (asAddContaining sp start last attr overlay name container).1

abbrev AsCalls (sp : SysPage) : Prop := Relation.ReflTransGen AsCall emptyPage sp

theorem table_emptyPage : Table emptyPage :=
  ⟨⟨[], packed_noStrings, fun _ he => absurd he List.not_mem_nil⟩,
    fun _ hr => absurd hr List.not_mem_nil, fun i r o hr => by simp [SysPage.regions, emptyPage] at hr⟩

theorem Table.call {sp sp' : SysPage} (h : Table sp) (hcall : AsCall sp sp') : Table sp' := by
  cases hcall with
  | @add start last attr continued overlay name owner hname hle howner =>
    obtain ⟨sp₁, hadd, htable, hregions, _⟩ := h.addEntry attr continued hname hle howner
    rw [asAdd, hadd]
    cases overlay with
    | false => exact htable
    | true =>
      have hio : "io".toList ≠ [] ∧ IsString "io".toList := by decide
      have howned : Owned sp₁ (some sp.asinfo.length) start last := by
        intro o ho
        cases ho
        refine ⟨⟨start, last, owner, name⟩, ?_, Nat.le_refl _, Nat.le_refl _⟩
        rw [hregions, List.getElem?_append_right (by rw [length_regions]), length_regions,
          Nat.sub_self]
        rfl
      obtain ⟨sp₂, hadd₂, htable₂, _⟩ := htable.addEntry attr continued hio hle howned
      dsimp only
      rw [if_pos rfl, hadd₂]
      exact htable₂
  | @addContaining start last attr overlay name container hname hle hlast =>
    obtain ⟨sp₁, new, hcall, htable, _⟩ :=
      asAddContaining_spec h attr overlay container hname hle hlast
    rw [hcall]
    exact htable

theorem calls_table {sp : SysPage} (h : AsCalls sp) : Table sp := by
  induction h with
  | refl => exact table_emptyPage
  | tail _ hcall ih => exact ih.call hcall

/-- What add_ram makes of an empty table, for the memory of the board. -/
def boardPage : SysPage :=
  let (sp, mem) := asDefault emptyPage
  let (sp, _) := asAdd sp 0 0xffffffff 0 false false "below4G".toList (some mem)
  (asAddContaining sp 0x10000000 0x4fffffff 1 false "ram".toList "memory".toList).1

theorem calls_boardPage : AsCalls boardPage := by
  have hmemory : AsCall emptyPage (asDefault emptyPage).1 :=
    .add (by decide) (by decide) fun o ho => by cases ho
  have hbelow : AsCall (asDefault emptyPage).1
      (asAdd (asDefault emptyPage).1 0 0xffffffff 0 false false "below4G".toList (some 0)).1 := by
    apply AsCall.add (by decide) (by decide)
    intro o ho
    cases ho
    exact ⟨⟨0, 0xffffffff, none, "memory".toList⟩, by decide, by decide, by decide⟩
  refine ((Relation.ReflTransGen.single hmemory).tail hbelow).tail ?_
  exact .addContaining (by decide) (by decide) (by decide)

theorem regions_boardPage : boardPage.regions = [⟨0, 0xffffffff, none, "memory".toList⟩,
    ⟨0, 0xffffffff, some 0, "below4G".toList⟩,
    ⟨0x10000000, 0x4fffffff, some 1, "ram".toList⟩] := by decide

/-- The region at the index `o` is in the container and has the address. -/
def Has (rs : List Region) (container : List Char) (o x : Nat) : Prop :=
  ∃ c, rs[o]? = some c ∧ Within rs container c ∧ x ∈ c.cells

/-- In the range each entry of the container lies in the earlier ones that it meets. -/
def Nested (rs : List Region) (container : List Char) (start last : Nat) : Prop :=
  ∀ o o' x : Nat, o < o' → start ≤ x → x ≤ last → Has rs container o x →
    Has rs container o' x → ∀ y, start ≤ y → y ≤ last → Has rs container o' y →
      Has rs container o y

theorem has_iff {sp : SysPage} (h : Forest sp.regions) (container : List Char) {o : Nat}
    {e : AsEntry} (he : sp.asinfo[o]? = some e) (x : Nat) :
    Has sp.regions container o x ↔ within sp container e = true ∧ e.start ≤ x ∧ x ≤ e.last := by
  have hregion : sp.regions[o]? = some (sp.region e) := by
    rw [regions_getElem?, he]
    rfl
  rw [within_iff h container he]
  constructor
  · rintro ⟨c, hc, hin, hx⟩
    rw [hregion] at hc
    cases hc
    exact ⟨hin, hx.1, Nat.le_of_lt_succ hx.2⟩
  · rintro ⟨hin, h₁, h₂⟩
    exact ⟨_, hregion, hin, h₁, Nat.lt_succ_of_le h₂⟩

theorem painted_passPieces {sp : SysPage} (h : Table sp) {start last : Nat}
    {container : List Char} (hle : start ≤ last) (hlast : last < paddrs)
    (hnested : Nested sp.regions container start last) {l : List AsEntry} {i : Nat}
    (hl : ∀ (j : Nat) (e : AsEntry), l[j]? = some e → sp.asinfo[i + j]? = some e)
    {list : List AsRange} (hlist : Painted (Has sp.regions container) start last i list) :
    Painted (Has sp.regions container) start last (i + l.length)
      (passPieces sp start last container l i list) := by
  induction l generalizing i list with
  | nil => exact hlist
  | cons e l ih =>
    have hnext : ∀ (j : Nat) (t : AsEntry), l[j]? = some t → sp.asinfo[i + 1 + j]? = some t := by
      intro j t ht
      have h := hl (j + 1) t ht
      rwa [Nat.add_assoc, Nat.add_comm 1 j]
    have he : sp.asinfo[i]? = some e := hl 0 e rfl
    have hne : e.start ≤ e.last :=
      h.forest.nonempty (sp.region e) (List.mem_map_of_mem (List.mem_of_getElem? he))
    have hhas := has_iff h.forest container he
    rw [passPieces, List.length_cons, ← Nat.add_assoc, Nat.add_right_comm]
    apply ih hnext
    by_cases hhit : e.hit sp start last container = true
    · obtain ⟨hin, hmeet⟩ := Bool.and_eq_true_iff.mp hhit
      have hcells : ∀ x, x ∈ (e.piece start last i).cells ↔
          start ≤ x ∧ x ≤ last ∧ Has sp.regions container i x := by
        intro x
        rw [piece_cells, hhas x]
        simp [hin]
      rw [if_pos hhit]
      refine hlist.insert hlast ⟨rfl, (meets_iff hle hne).mp hmeet, hcells, ?_⟩
      intro o ho x hx hox y hy
      obtain ⟨hx₁, hx₂, hix⟩ := (hcells x).mp hx
      obtain ⟨hy₁, hy₂, hiy⟩ := (hcells y).mp hy
      exact hnested o i x ho hx₁ hx₂ hox hix y hy₁ hy₂ hiy
    · rw [if_neg hhit]
      apply hlist.skip
      intro x h₁ h₂ hix
      obtain ⟨hin, hx⟩ := (hhas x).mp hix
      apply hhit
      refine Bool.and_eq_true_iff.mpr ⟨hin, (meets_iff hle hne).mpr ?_⟩
      have hcell : x ∈ (e.piece start last 0).cells := (piece_cells e _ _ _ x).mpr ⟨h₁, h₂, hx⟩
      rw [AsRange.cells, mem_range] at hcell
      omega

/-- What a call adds then: each address of the range that the container has goes to its last
entry there, and to no other. -/
structure Assigned (sp : SysPage) (start last : Nat) (name container : List Char)
    (new : List Region) : Prop where
  named : ∀ r ∈ new, r.name = name
  owned : ∀ x o : Nat, (∃ r ∈ new, r.owner = some o ∧ x ∈ r.cells) ↔
    start ≤ x ∧ x ≤ last ∧ Latest (Has sp.regions container) sp.asinfo.length x o
  disjoint : new.Pairwise fun a b => Disjoint a.cells b.cells

theorem pieceLoop_assigned {sp : SysPage} (h : Table sp) {start last : Nat} (name : List Char)
    {container : List Char} (hle : start ≤ last) (hlast : last < paddrs)
    (hnested : Nested sp.regions container start last) {list : List AsRange}
    (hlist : pieceLoop sp start last container (sp.asinfo.length + 1) none [] = list) :
    (∀ r ∈ list, r.start ≤ r.last → Owned sp (some r.owner) r.start r.last) ∧
      Assigned sp start last name container (newRegions name list) := by
  have hloop := @pieceLoop_eq sp start last container (sp.asinfo.length + 1) none []
    (by change _ < _ + 0; omega)
  rw [behind, List.drop_zero, hlist] at hloop
  have hpainted := painted_passPieces h hle hlast hnested (l := sp.asinfo) (i := 0)
    (fun j e he => by rwa [Nat.zero_add]) painted_nil
  rw [← hloop, Nat.zero_add] at hpainted
  have hnew : newRegions name list = list.map (AsRange.region name) := by
    rw [newRegions, List.filter_eq_self.mpr]
    intro r hr
    simpa using hpainted.nonempty r hr
  constructor
  · intro r hr hr' o ho
    cases ho
    obtain ⟨_, ⟨c, hc, _, hfirst⟩, _⟩ := hpainted.latest r hr r.start ⟨Nat.le_refl _, by omega⟩
    obtain ⟨_, ⟨c', hc', _, hend⟩, _⟩ := hpainted.latest r hr r.last ⟨hr', Nat.lt_succ_self _⟩
    rw [hc] at hc'
    cases hc'
    exact ⟨c, hc, hfirst.1, Nat.le_of_lt_succ hend.2⟩
  · rw [hnew]
    constructor
    · intro t ht
      obtain ⟨r, _, rfl⟩ := List.mem_map.mp ht
      rfl
    · intro x o
      constructor
      · rintro ⟨t, ht, ho, hx⟩
        obtain ⟨r, hr, rfl⟩ := List.mem_map.mp ht
        obtain ⟨h₁, h₂⟩ := hpainted.inside r hr
        have howner : r.owner = o := Option.some.inj ho
        have hlatest := hpainted.latest r hr x hx
        rw [howner] at hlatest
        exact ⟨Nat.le_trans h₁ hx.1, Nat.le_trans (Nat.le_of_lt_succ hx.2) h₂, hlatest⟩
      · rintro ⟨h₁, h₂, hlatest⟩
        obtain ⟨r, hr, hx⟩ := hpainted.complete x o h₁ h₂ hlatest
        have howner := (hpainted.latest r hr x hx).unique hlatest
        exact ⟨r.region name, List.mem_map_of_mem hr, congrArg some howner, hx⟩
    · exact List.pairwise_map.mpr hpainted.disjoint

theorem nested_boardPage : Nested boardPage.regions "memory".toList 0x0fff0000 0x10ffffff := by
  have hall : ∀ o < 2, ∀ y ≤ 0x10ffffff, Has boardPage.regions "memory".toList o y := by
    intro o ho y hy
    rw [regions_boardPage]
    rcases Nat.lt_or_ge o 1 with h | h
    · obtain rfl : o = 0 := by omega
      exact ⟨_, rfl, .self rfl, Nat.zero_le y, Nat.lt_succ_of_le (Nat.le_trans hy (by decide))⟩
    · obtain rfl : o = 1 := by omega
      exact ⟨_, rfl, .owner rfl rfl (.self rfl), Nat.zero_le y,
        Nat.lt_succ_of_le (Nat.le_trans hy (by decide))⟩
  intro o o' x hless _ _ _ ⟨c, hc, _⟩ y _ hy _
  have hlength := (List.getElem?_eq_some_iff.mp hc).1
  rw [regions_boardPage, List.length_cons, List.length_cons, List.length_singleton] at hlength
  exact hall o (by omega) y hy

end FridaCI.Startup
