import FridaCI.Ipl.Image

/-!
# Which image is found

image_scan goes through the memory word by word and from the end of one valid image to the
next. It returns the first image of the highest version; one of version zero is never chosen.
-/

namespace FridaCI.Ipl

set_option autoImplicit false

def header (mem : Memory) (a : Addr) : Memory := fun o => mem (a + o)

/-- What an image has to pass. -/
def Checked (mem : Memory) (a : Addr) : Prop :=
  signature (header mem a) = headerSignature ∧
    wordSum mem a ((startupSize (header mem a)).toNat / 4) = 0 ∧
    wordSum mem (a + startupSize (header mem a))
      ((storedSize (header mem a) - startupSize (header mem a)).toNat / 4) = 0

instance (mem : Memory) (a : Addr) : Decidable (Checked mem a) :=
  inferInstanceAs (Decidable (_ ∧ _ ∧ _))

/-- The images from `start` on, in order; `none` if the fuel is used up. -/
def images (mem : Memory) (stop : Addr) : Nat → Addr → Option (List Addr)
  | 0, _ => none
  | fuel + 1, start =>
    if start < stop then
      if Checked mem start then
        (images mem stop fuel (start + storedSize (header mem start))).map (start :: ·)
      else images mem stop fuel (start + 4)
    else some []

def imageVersion (mem : Memory) (a : Addr) : Nat := (version (header mem a)).toNat

def newest (mem : Memory) (l : List Addr) : Addr :=
  ((l.filter fun a => 0 < imageVersion mem a).argmax (imageVersion mem)).getD (-1)

/-! ## One round -/

theorem word_header (mem : Memory) (a o : Addr) : (header mem a).word o = mem.word (a + o) := by
  simp only [Memory.word, header, BitVec.add_assoc]

theorem word_load_header (obj mem : Memory) (a : Addr) {o : Addr} (h : o.toNat + 3 < 256) :
    (obj.load mem a headerSize).word o = (header mem a).word o := by
  rw [word_header, word_load _ _ _ h]

/-- The fields of a header that has been copied. -/
theorem load_header (obj mem : Memory) (a : Addr) :
    signature (obj.load mem a headerSize) = signature (header mem a) ∧
    version (obj.load mem a headerSize) = version (header mem a) ∧
    startupVaddr (obj.load mem a headerSize) = startupVaddr (header mem a) ∧
    paddrBias (obj.load mem a headerSize) = paddrBias (header mem a) ∧
    ramPaddr (obj.load mem a headerSize) = ramPaddr (header mem a) ∧
    startupSize (obj.load mem a headerSize) = startupSize (header mem a) ∧
    storedSize (obj.load mem a headerSize) = storedSize (header mem a) := by
  have h := fun o => @word_load_header obj mem a o
  exact ⟨h 0 (by decide), rfl, h 12 (by decide), h 16 (by decide), h 24 (by decide),
    h 32 (by decide), h 36 (by decide)⟩

/-- mkifs rounds startup programs and images up to whole words. -/
def Whole (mem : Memory) (start stop : Addr) : Prop :=
  ∀ a < stop, 4 ∣ (a - start).toNat → signature (header mem a) = headerSignature →
    4 ∣ (startupSize (header mem a)).toNat ∧ 4 ∣ (storedSize (header mem a)).toNat

theorem putstr_mem (s : Loader) (str : String) : (s.putstr str).mem = s.mem := by
  have h : ∀ (l : List Char) (s : Loader),
      (l.foldl (fun s c => s.putchar (BitVec.ofNat 8 c.toNat)) s).mem = s.mem := by
    intro l
    induction l with
    | nil => exact fun _ => rfl
    | cons c l ih => exact fun s => ih (s.putchar _)
  exact h str.toList s

theorem checkImage_spec (s : Loader) {start : Addr} {hdr : Memory}
    (whole : signature hdr = headerSignature →
      4 ∣ (startupSize hdr).toNat ∧ 4 ∣ (storedSize hdr).toNat) :
    (checkImage s start hdr).1.mem = s.mem ∧ ((checkImage s start hdr).2 = true ↔
      signature hdr = headerSignature ∧ wordSum s.mem start ((startupSize hdr).toNat / 4) = 0 ∧
      wordSum s.mem (start + startupSize hdr)
        ((storedSize hdr - startupSize hdr).toNat / 4) = 0) := by
  unfold checkImage
  dsimp only
  split
  · next hs => exact ⟨rfl, by simp [hs]⟩
  · next hs =>
    have hs := Decidable.not_not.mp hs
    obtain ⟨hdvd, hdvd'⟩ := whole hs
    have hdvd'' : 4 ∣ (storedSize hdr - startupSize hdr).toNat := by bv_omega
    rw [checksum_of_dvd _ _ _ hdvd, checksum_of_dvd _ _ _ hdvd'']
    split
    · next hsum =>
      refine ⟨putstr_mem _ _, ?_⟩
      exact iff_of_false Bool.false_ne_true fun h => hsum h.2.1
    · next hsum =>
      have hsum := Decidable.not_not.mp hsum
      split
      · next hsum' =>
        refine ⟨putstr_mem _ _, ?_⟩
        exact iff_of_false Bool.false_ne_true fun h => hsum' h.2.2
      · next hsum' => exact ⟨rfl, iff_of_true rfl ⟨hs, hsum, Decidable.not_not.mp hsum'⟩⟩

/-- The choice between the image at `a` and the best one so far. -/
def newer (mem : Memory) (best : BitVec 16 × Addr) (a : Addr) : BitVec 16 × Addr :=
  if best.1 < version (header mem a) then (version (header mem a), a) else best

/-- A round that finds an image goes on behind it, any other one goes on with the next word. -/
theorem imageScanRound_spec {c c' : Scan} (hc : imageScanRound c = c')
    (whole : signature (header c.loader.mem c.start) = headerSignature →
      4 ∣ (startupSize (header c.loader.mem c.start)).toNat ∧
      4 ∣ (storedSize (header c.loader.mem c.start)).toNat) :
    c'.loader.mem = c.loader.mem ∧
    (Checked c.loader.mem c.start →
      c'.start = c.start + storedSize (header c.loader.mem c.start) ∧
      (c'.lastver, c'.lastaddr) = newer c.loader.mem (c.lastver, c.lastaddr) c.start) ∧
    (¬ Checked c.loader.mem c.start →
      c'.start = c.start + 4 ∧ (c'.lastver, c'.lastaddr) = (c.lastver, c.lastaddr)) := by
  obtain ⟨hsig, hver, _, _, _, hstartup, hstored⟩ :=
    load_header c.loader.startupHdr c.loader.mem c.start
  have hadd : ∀ a b : Addr, a + (b - 4) + 4 = a + b := by
    intro a b
    bv_omega
  unfold imageScanRound at hc
  dsimp only at hc
  generalize c.loader.startupHdr.load c.loader.mem c.start headerSize = hdr at *
  rw [← hsig, ← hstartup, ← hstored] at whole
  obtain ⟨hmem, hok⟩ := @checkImage_spec { c.loader with startupHdr := hdr } c.start hdr whole
  rw [hsig, hstartup, hstored] at hok
  have hok : _ ↔ Checked c.loader.mem c.start := hok
  generalize checkImage { c.loader with startupHdr := hdr } c.start hdr = r at hmem hok hc
  unfold newer
  rw [← hver, ← hok, ← hstored]
  split at hc
  · next htrue =>
    by_cases hnew : c.lastver < version hdr
    · rw [if_pos hnew] at hc ⊢
      subst hc
      exact ⟨hmem, fun _ => ⟨hadd _ _, rfl⟩, fun h => absurd htrue h⟩
    · rw [if_neg hnew] at hc ⊢
      subst hc
      exact ⟨hmem, fun _ => ⟨hadd _ _, rfl⟩, fun h => absurd htrue h⟩
  · next hfalse =>
    subst hc
    exact ⟨hmem, fun h => absurd h hfalse, fun _ => ⟨rfl, rfl⟩⟩

/-! ## The whole scan -/

theorem imageScanLoop_images {mem : Memory} {first stop : Addr} (whole : Whole mem first stop)
    (fuel : Nat) (c : Scan) (hmem : c.loader.mem = mem) (hdvd : 4 ∣ (c.start - first).toNat) :
    (images mem stop fuel c.start = none → imageScanLoop stop fuel c = none) ∧
    ∀ l, images mem stop fuel c.start = some l → ∃ s, s.mem = mem ∧
      imageScanLoop stop fuel c =
        some (s, (l.foldl (newer mem) (c.lastver, c.lastaddr)).2) := by
  induction fuel generalizing c with
  | zero => exact ⟨fun _ => rfl, fun l h => by cases h⟩
  | succ fuel ih =>
    rw [images, imageScanLoop]
    split
    · next hlt =>
      generalize hc' : imageScanRound c = c'
      have hwhole := whole c.start hlt hdvd
      obtain ⟨hmem', hfound, hpassed⟩ := imageScanRound_spec hc' (hmem ▸ hwhole)
      rw [hmem] at hmem' hfound hpassed
      split
      · next himage =>
        obtain ⟨hstart, hbest⟩ := hfound himage
        have hdvd' : 4 ∣ (c'.start - first).toNat := by
          have := (hwhole himage.1).2
          rw [hstart]
          bv_omega
        obtain ⟨hnone, hsome⟩ := ih c' hmem' hdvd'
        rw [← hstart]
        constructor
        · intro h
          exact hnone (Option.map_eq_none_iff.mp h)
        · intro l h
          obtain ⟨rest, hrest, rfl⟩ := Option.map_eq_some_iff.mp h
          rw [List.foldl_cons, ← hbest]
          exact hsome rest hrest
      · next himage =>
        obtain ⟨hstart, hbest⟩ := hpassed himage
        have hdvd' : 4 ∣ (c'.start - first).toNat := by
          rw [hstart]
          bv_omega
        rw [← hstart, ← hbest]
        exact ih c' hmem' hdvd'
    · constructor
      · intro h
        cases h
      · intro l h
        cases h
        exact ⟨c.loader, hmem, rfl⟩

/-- The pair in front of the loop is as good as no image at all. -/
theorem foldl_newer (mem : Memory) (l : List Addr) :
    (l.foldl (newer mem) (0, -1)).2 = newest mem l := by
  have h : ∀ (l : List Addr) (best : BitVec 16 × Addr) (b : Option Addr),
      best = (b.elim 0 fun a => version (header mem a), b.getD (-1)) →
      (l.foldl (newer mem) best).2 =
        ((l.filter fun a => 0 < imageVersion mem a).foldl
          (List.argAux fun b c => imageVersion mem c < imageVersion mem b) b).getD (-1) := by
    intro l
    induction l with
    | nil =>
      intro best b hb
      rw [hb]
      rfl
    | cons a l ih =>
      intro best b hb
      rw [List.foldl_cons]
      by_cases hpos : 0 < imageVersion mem a
      · rw [List.filter_cons_of_pos (by simpa using hpos), List.foldl_cons]
        apply ih
        rw [hb, newer]
        cases b with
        | none =>
          have hlt : 0 < version (header mem a) := BitVec.lt_def.mpr hpos
          exact if_pos hlt
        | some c =>
          dsimp only [List.argAux]
          by_cases hlt : imageVersion mem c < imageVersion mem a
          · rw [if_pos hlt]
            exact if_pos (BitVec.lt_def.mpr hlt)
          · rw [if_neg hlt]
            exact if_neg fun h => hlt (BitVec.lt_def.mp h)
      · rw [List.filter_cons_of_neg (by simpa using hpos)]
        have hle : ¬ best.1 < version (header mem a) := by
          intro h
          exact hpos (Nat.zero_lt_of_lt (BitVec.lt_def.mp h))
        rw [newer, if_neg hle]
        exact ih best b hb
  exact h l (0, -1) none rfl

/-- No image has size zero, and none goes past the end of the addresses. -/
def Forward (mem : Memory) (stop : Addr) : Prop :=
  ∀ a < stop, Checked mem a →
    0 < (storedSize (header mem a)).toNat ∧ a.toNat + (storedSize (header mem a)).toNat < 2 ^ 32

theorem images_isSome {mem : Memory} {stop : Addr} (forward : Forward mem stop)
    (hstop : stop.toNat + 4 ≤ 2 ^ 32) {fuel : Nat} {start : Addr}
    (hfuel : stop.toNat - start.toNat < fuel) : ∃ l, images mem stop fuel start = some l := by
  induction fuel generalizing start with
  | zero => exact absurd hfuel (Nat.not_lt_zero _)
  | succ fuel ih =>
    rw [images]
    split
    · next hlt =>
      split
      · next himage =>
        obtain ⟨hpos, hend⟩ := forward start hlt himage
        have hnext : stop.toNat - (start + storedSize (header mem start)).toNat < fuel := by
          bv_omega
        obtain ⟨l, hl⟩ := ih hnext
        exact ⟨start :: l, by rw [hl]; rfl⟩
      · exact ih (by bv_omega)
    · exact ⟨[], rfl⟩

theorem checked_of_mem_images {mem : Memory} {stop : Addr} {fuel : Nat} {start : Addr}
    {l : List Addr} (h : images mem stop fuel start = some l) :
    ∀ a ∈ l, a < stop ∧ Checked mem a := by
  induction fuel generalizing start l with
  | zero => cases h
  | succ fuel ih =>
    rw [images] at h
    split at h
    · next hlt =>
      split at h
      · next himage =>
        obtain ⟨rest, hrest, rfl⟩ := Option.map_eq_some_iff.mp h
        exact List.forall_mem_cons.mpr ⟨⟨hlt, himage⟩, ih hrest⟩
      · exact ih h
    · cases h
      exact fun a ha => by cases ha

theorem newest_spec (mem : Memory) (l : List Addr) :
    (newest mem l = -1 ∧ ∀ a ∈ l, imageVersion mem a = 0) ∨
    (newest mem l ∈ l ∧ 0 < imageVersion mem (newest mem l) ∧
      ∀ a ∈ l, imageVersion mem a ≤ imageVersion mem (newest mem l)) := by
  have hfilter : ∀ a ∈ l, 0 < imageVersion mem a →
      a ∈ l.filter fun a => 0 < imageVersion mem a :=
    fun a ha hpos => List.mem_filter.mpr ⟨ha, decide_eq_true hpos⟩
  unfold newest
  cases hmax : (l.filter fun a => 0 < imageVersion mem a).argmax (imageVersion mem) with
  | none =>
    refine Or.inl ⟨rfl, ?_⟩
    intro a ha
    by_contra hpos
    have hmem := hfilter a ha (Nat.pos_of_ne_zero hpos)
    rw [List.argmax_eq_none.mp hmax] at hmem
    cases hmem
  | some b =>
    obtain ⟨hb, hpos⟩ := List.mem_filter.mp (List.argmax_mem hmax)
    refine Or.inr ⟨hb, of_decide_eq_true hpos, ?_⟩
    intro a ha
    rcases Nat.eq_zero_or_pos (imageVersion mem a) with hzero | hpos
    · exact hzero ▸ Nat.zero_le _
    · exact List.le_of_mem_argmax (hfilter a ha hpos) hmax

def sampleWord : Nat → BitVec 32
  | 0 => headerSignature
  | 1 => 1
  | 3 => 0x10000100
  | 6 => 0x10000000
  | 8 => 260
  | 9 => 516
  | 64 => 0xdf007d0c
  | _ => 0

def sampleByte (i : Nat) : Byte := (sampleWord (i / 4)).extractLsb' (8 * (i % 4)) 8

def sampleAt (base : Addr) : Memory := fun a => sampleByte (a - base).toNat

theorem sampleByte_behind {i : Nat} (h : 260 ≤ i) : sampleByte i = 0 := by
  have hzero : sampleWord (i / 4) = 0 := by
    unfold sampleWord
    split
    all_goals first | rfl | omega
  rw [sampleByte, hzero]
  simp

/-- No other byte is the first one of the signature. -/
theorem sampleAt_signature {base a : Addr}
    (h : signature (header (sampleAt base) a) = headerSignature) : a = base := by
  have hfew : ∀ i < 260, sampleByte i = 0xeb → i = 0 := by
    decide +kernel
  have hbytes : ∀ i, sampleByte i = 0xeb → i = 0 := by
    intro i hi
    rcases Nat.lt_or_ge i 260 with hlt | hge
    · exact hfew i hlt hi
    · rw [sampleByte_behind hge] at hi
      exact absurd hi (by decide)
  have hfirst : sampleAt base a = 0xeb := by
    have hword := congrArg (BitVec.extractLsb' 0 8) h
    have hbyte : headerSignature.extractLsb' 0 8 = 0xeb := by decide
    rw [signature, (extract_word _ _).1, hbyte] at hword
    simpa [header] using hword
  have hzero := hbytes _ hfirst
  bv_omega

def sampleLoader : Loader := ⟨sampleAt 0x16000000, fun _ => 0, fun _ => 0, []⟩

/-- The header with the place of the file system. -/
def patched (mem : Memory) (addr : Addr) : Memory :=
  setImagefsPaddr (header mem addr)
    (addr + startupSize (header mem addr) - paddrBias (header mem addr))

def ramAddr (mem : Memory) (addr : Addr) : Addr :=
  ramPaddr (header mem addr) + paddrBias (header mem addr)

theorem storeWord_congr {mem mem' : Memory} {a : Addr} (h : mem a = mem' a) (dest : Addr)
    (w : BitVec 32) : mem.storeWord dest w a = mem'.storeWord dest w a := by
  simp only [Memory.storeWord, Memory.store, h]

theorem startupSize_setImagefsPaddr (hdr : Memory) (paddr : Addr) :
    startupSize (setImagefsPaddr hdr paddr) = startupSize hdr := by
  have hframe : ∀ o : Addr, o < 36 → setImagefsPaddr hdr paddr o = hdr o := by
    intro o ho
    apply storeWord_frame
    bv_omega
  unfold startupSize Memory.word
  rw [hframe _ (by decide), hframe _ (by decide), hframe _ (by decide), hframe _ (by decide)]

/-- Offsets into the place of the startup program, whose header has 256 bytes and which begins `d`
bytes behind the image. -/
theorem offset_spec {d size k : Addr} (hsize : 256 ≤ size.toNat)
    (hplace : d = 0 ∨ size.toNat ≤ d.toNat) :
    (k - 256 < size - 256 ↔ k < size ∧ ¬ k < 256) ∧
      (k < size → ¬ k < 256 → ¬ k - d < 256) ∧
      (d = 0 ∨ (size - 256).toNat ≤ d.toNat) := by
  refine ⟨?_, ?_, ?_⟩
  · clear hplace
    constructor
    · intro h
      constructor
      · bv_omega
      · bv_omega
    · rintro ⟨hin, hbehind⟩
      bv_omega
  · intro hin hbehind
    bv_omega
  · bv_omega

/-- A header stored at `addr + d`, and what is behind the header of the image copied behind it. -/
theorem copy_unload_apply (mem hdr : Memory) {addr d size : Addr} (hsize : 256 ≤ size.toNat)
    (hplace : d = 0 ∨ size.toNat ≤ d.toNat) (k : Addr) :
    copy (mem.unload hdr (addr + d) 256) (addr + d + 256) (addr + 256) (size - 256)
        (addr + d + k) =
      if k < size then if k < 256 then hdr k else mem (addr + k) else mem (addr + d + k) := by
  obtain ⟨hcopied, hapart, hfar⟩ := offset_spec (k := k) hsize hplace
  have hdest : addr + d + 256 - (addr + 256) = d := by
    rw [add_sub_add_right_eq_sub, add_sub_cancel_left]
  have hoff : addr + d + k - (addr + d) = k := add_sub_cancel_left _ _
  have hoff' : addr + d + k - (addr + d + 256) = k - 256 := add_sub_add_left_eq_sub _ _ _
  have hsrc : addr + 256 + (k - 256) = addr + k := by rw [add_assoc, add_sub_cancel]
  have hback : addr + k - (addr + d) = k - d := add_sub_add_left_eq_sub _ _ _
  have hcopy : addr + d + 256 = addr + 256 ∨
      (size - 256).toNat ≤ (addr + d + 256 - (addr + 256)).toNat := by
    rw [hdest]
    exact hfar.imp_left fun h => by rw [h, add_zero]
  rw [copy_apply _ hcopy, hoff', hsrc]
  by_cases hin : k < size
  · rw [if_pos hin]
    by_cases hfirst : k < 256
    · rw [if_neg fun h => (hcopied.mp h).2 hfirst, if_pos hfirst, Memory.unload, hoff,
        if_pos hfirst]
    · rw [if_pos (hcopied.mpr ⟨hin, hfirst⟩), if_neg hfirst, Memory.unload, hback,
        if_neg (hapart hin hfirst)]
  · have hfirst : ¬ k < 256 := by
      clear hcopied hapart hcopy hfar hplace hdest hoff hoff' hsrc hback
      bv_omega
    rw [if_neg hin, if_neg fun h => hin (hcopied.mp h).1, Memory.unload, hoff, if_neg hfirst]

/-- The startup program arrives whole unless its place begins inside the image behind its first
byte: then it is overwritten before it has been read. -/
theorem imageSetup_apply (s : Loader) (addr : Addr)
    (hsize : 256 ≤ (startupSize (header s.mem addr)).toNat)
    (hplace : ramAddr s.mem addr = addr ∨
      (startupSize (header s.mem addr)).toNat ≤ (ramAddr s.mem addr - addr).toNat) (k : Addr) :
    (imageSetup s addr).mem (ramAddr s.mem addr + k) =
      if k < startupSize (header s.mem addr) then patched s.mem addr k
      else s.mem (ramAddr s.mem addr + k) := by
  obtain ⟨_, _, _, hbias, hram, hstartup, _⟩ := load_header s.startupHdr s.mem addr
  unfold imageSetup
  dsimp only
  have haddr : ramPaddr (header s.mem addr) + paddrBias (header s.mem addr) =
      ramAddr s.mem addr := rfl
  rw [startupSize_setImagefsPaddr, hbias, hram, hstartup, haddr]
  have hram' : ramAddr s.mem addr = addr + (ramAddr s.mem addr - addr) := by
    rw [add_sub_cancel]
  have hplace' : ramAddr s.mem addr - addr = 0 ∨
      (startupSize (header s.mem addr)).toNat ≤ (ramAddr s.mem addr - addr).toNat :=
    hplace.imp_left fun h => by rw [h, sub_self]
  generalize ramAddr s.mem addr - addr = d at hram' hplace'
  rw [hram']
  unfold headerSize
  rw [copy_unload_apply s.mem _ hsize hplace' k, patched]
  by_cases hfirst : k < 256
  · have hload : s.startupHdr.load s.mem addr 256 k = header s.mem addr k := if_pos hfirst
    rw [if_pos hfirst, setImagefsPaddr, setImagefsPaddr, storeWord_congr hload]
  · have hpatch : 4 ≤ (k - 40).toNat := by
      clear hplace hplace' hsize
      bv_omega
    rw [if_neg hfirst, setImagefsPaddr, storeWord_frame _ _ hpatch]
    rfl

/-- The startup program runs in front of the image, behind it, or where it is. -/
structure Apart (mem : Memory) (addr : Addr) : Prop where
  header : 256 ≤ (startupSize (header mem addr)).toNat
  stored : (startupSize (Ipl.header mem addr)).toNat ≤ (storedSize (Ipl.header mem addr)).toNat
  place : ramAddr mem addr = addr ∨
    ((storedSize (Ipl.header mem addr)).toNat ≤ (ramAddr mem addr - addr).toNat ∧
      (startupSize (Ipl.header mem addr)).toNat ≤ (addr - ramAddr mem addr).toNat)

theorem behind_of_apart {d size stored k : Addr} (hsize : 256 ≤ size.toNat)
    (hd : stored.toNat ≤ d.toNat) (hd' : size.toNat ≤ (0 - d).toNat) (hk : k < stored) :
    ¬ k - d < size := by
  bv_omega

/-- Of the image itself only the place of its file system changes, and that only if the startup
program stays where it is. -/
theorem imageSetup_image (s : Loader) {addr : Addr} (h : Apart s.mem addr) {k : Addr}
    (hk : k < storedSize (header s.mem addr)) (hpatch : 4 ≤ (k - 40).toNat) :
    (imageSetup s addr).mem (addr + k) = s.mem (addr + k) := by
  have hsetup := imageSetup_apply s addr h.header
    (h.place.imp_right fun hd => Nat.le_trans h.stored hd.1)
  rcases h.place with hsame | ⟨hd, hd'⟩
  · have happly := hsetup k
    rw [hsame] at happly
    rw [happly]
    split
    · exact storeWord_frame _ _ hpatch
    · rfl
  · have happly := hsetup (k - (ramAddr s.mem addr - addr))
    have haddr : ramAddr s.mem addr + (k - (ramAddr s.mem addr - addr)) = addr + k := by
      rw [sub_sub_eq_add_sub, add_sub_cancel, add_comm]
    have hneg : addr - ramAddr s.mem addr = 0 - (ramAddr s.mem addr - addr) := by
      rw [zero_sub, neg_sub]
    rw [hneg] at hd'
    rw [haddr, if_neg (behind_of_apart h.header hd hd' hk)] at happly
    exact happly

end FridaCI.Ipl
