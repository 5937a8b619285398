import FridaCI.Ipl.Scan
import FridaCI.Ipl.Download

/-!
# The boot loader

ipl/boards/mx6q-sabrelite/main.c behind the setup of the board. The loader reads an image from
a card or from the serial line, looks for it in memory and starts it. What the card gives is
not known here: `sdmmcLoad n` is the n-th call of sdmmc_load_file.
-/

namespace FridaCI.Ipl

set_option autoImplicit false

def qnxLoadAddr : Addr := 0x16000000

/-- The variables of main, and the bytes that come in on the serial line. -/
structure Main where
  loader : Loader
  image : Addr
  calls : Nat
  input : List Byte

/-- `waiting` for a byte that never comes, `hang` in image_scan. -/
inductive Boot where
  | jumped (s : Loader) (vaddr : Addr)
  | waiting (s : Loader)
  | hang

/-- An image that has been found. -/
def start (s : Loader) (image : Addr) : Boot :=
  let s := ((s.putstr "Found image               @ 0x").puthex image).putstr "\n"
  let s := imageSetup s image
  let s := s.putstr "Jumping to startup        @ 0x"
  let s := (s.puthex (startupVaddr s.startupHdr)).putstr "\n\n"
  let (s, vaddr) := imageStart s image
  .jumped s vaddr

/-- The end of a round: what image_scan returns is the place of the image from here on. -/
def scanAndStart (fuel : Nat) (m : Main) : Boot ⊕ Main :=
  match imageScan fuel m.loader m.image (m.image + 0x200) with
  | none => .inl .hang
  | some (s, image) =>
    if image ≠ 0xffffffff then .inl (start s image) else .inr { m with loader := s, image }

def scanOrFail (fuel : Nat) (m : Main) : Boot ⊕ Main :=
  (scanAndStart fuel m).map id fun m =>
    { m with loader := m.loader.putstr "Image_scan failed...\n" }

def prompt (s : Loader) : Loader :=
  ((s.putstr "Command:\n").putstr
    "Press 'D' for serial download, using the 'sendnto' utility\n").putstr
    "Press 'M' for SDMMC download, IFS filename MUST be 'QNX-IFS'.\n"

variable (sdmmcLoad : Nat → Loader → Loader × Bool)

/-- One round of the command loop. The keys are D and d, M and m. -/
def mainRound (fuel : Nat) (m : Main) : Boot ⊕ Main :=
  let s := prompt m.loader
  match m.input with
  | [] => .inl (.waiting s)
  | key :: input =>
    if key = 0x44 ∨ key = 0x64 then
      match imageDownloadSer (s.putstr "send image now...\n") m.image input with
      | .waiting s => .inl (.waiting s)
      | .failed s rest =>
        .inr { m with loader := s.putstr "download failed...\n", input := rest }
      | .done s rest =>
        scanOrFail fuel { m with loader := s.putstr "download OK...\n", input := rest }
    else if key = 0x4d ∨ key = 0x6d then
      match sdmmcLoad m.calls s with
      | (s, true) => scanOrFail fuel { m with loader := s, calls := m.calls + 1, input }
      | (s, false) =>
        .inr { m with loader := s.putstr "load image failed\n", calls := m.calls + 1, input }
    else .inr { m with loader := s, input }

/-- `none` if the command loop is still running after the rounds. -/
def mainLoop (fuel : Nat) : Nat → Main → Option Boot
  | 0, _ => none
  | rounds + 1, m =>
    match mainRound sdmmcLoad fuel m with
    | .inl boot => some boot
    | .inr m => mainLoop fuel rounds m

/-- The card comes first. -/
def main (fuel rounds : Nat) (s : Loader) (input : List Byte) : Option Boot :=
  match sdmmcLoad 0 s with
  | (s, true) =>
    match scanAndStart fuel ⟨s, qnxLoadAddr, 1, input⟩ with
    | .inl boot => some boot
    | .inr m => mainLoop sdmmcLoad fuel rounds m
  | (s, false) => mainLoop sdmmcLoad fuel rounds ⟨s, qnxLoadAddr, 1, input⟩

/-! ## What is started -/

/-- An image at `a` in front of `stop`: it has passed its checks, whatever scratch held then. -/
structure Accepted (mem : Memory) (stop a : Addr) : Prop where
  below : a < stop
  signed : signature (header mem a) = headerSignature
  startup : ∃ scratch, (checksum mem scratch a (startupSize (header mem a))).2 = 0
  rest : ∃ scratch, (checksum mem scratch (a + startupSize (header mem a))
    (storedSize (header mem a) - startupSize (header mem a))).2 = 0
  versioned : 0 < version (header mem a)

theorem checkImage_accepts (s : Loader) {start : Addr} {hdr : Memory} :
    (checkImage s start hdr).1.mem = s.mem ∧ ((checkImage s start hdr).2 = true →
      signature hdr = headerSignature ∧
      (∃ scratch, (checksum s.mem scratch start (startupSize hdr)).2 = 0) ∧
      ∃ scratch, (checksum s.mem scratch (start + startupSize hdr)
        (storedSize hdr - startupSize hdr)).2 = 0) := by
  unfold checkImage
  dsimp only
  split
  · exact ⟨rfl, fun h => by cases h⟩
  · next hs =>
    split
    · exact ⟨putstr_mem _ _, fun h => by cases h⟩
    · next hsum =>
      split
      · exact ⟨putstr_mem _ _, fun h => by cases h⟩
      · next hsum' =>
        refine ⟨rfl, fun _ => ⟨Decidable.not_not.mp hs, ⟨_, Decidable.not_not.mp hsum⟩, ?_⟩⟩
        exact ⟨_, Decidable.not_not.mp hsum'⟩

theorem imageScanRound_accepts {stop : Addr} {c c' : Scan} (hc : imageScanRound c = c')
    (hlt : c.start < stop)
    (h : c.lastaddr = -1 ∨ Accepted c.loader.mem stop c.lastaddr) :
    c'.loader.mem = c.loader.mem ∧
      (c'.lastaddr = -1 ∨ Accepted c.loader.mem stop c'.lastaddr) := by
  obtain ⟨hsig, hver, _, _, _, hstartup, hstored⟩ :=
    load_header c.loader.startupHdr c.loader.mem c.start
  unfold imageScanRound at hc
  dsimp only at hc
  generalize c.loader.startupHdr.load c.loader.mem c.start headerSize = hdr at *
  obtain ⟨hmem, hok⟩ :=
    @checkImage_accepts { c.loader with startupHdr := hdr } c.start hdr
  rw [hsig, hstartup, hstored] at hok
  generalize checkImage { c.loader with startupHdr := hdr } c.start hdr = r at hmem hok hc
  split at hc
  · next htrue =>
    obtain ⟨hs, hsum, hsum'⟩ := hok htrue
    by_cases hnew : c.lastver < version hdr
    · rw [if_pos hnew] at hc
      subst hc
      refine ⟨hmem, Or.inr ⟨hlt, hs, hsum, hsum', ?_⟩⟩
      rw [← hver]
      bv_omega
    · rw [if_neg hnew] at hc
      subst hc
      exact ⟨hmem, h⟩
  · subst hc
    exact ⟨hmem, h⟩

theorem imageScanLoop_accepts {stop : Addr} {fuel : Nat} {c : Scan} {s : Loader} {a : Addr}
    (hscan : imageScanLoop stop fuel c = some (s, a))
    (h : c.lastaddr = -1 ∨ Accepted c.loader.mem stop c.lastaddr) :
    s.mem = c.loader.mem ∧ (a = -1 ∨ Accepted s.mem stop a) := by
  induction fuel generalizing c with
  | zero => cases hscan
  | succ fuel ih =>
    rw [imageScanLoop] at hscan
    split at hscan
    · next hlt =>
      generalize hc' : imageScanRound c = c' at hscan
      obtain ⟨hmem, hbest⟩ := imageScanRound_accepts hc' hlt h
      rw [← hmem] at hbest ⊢
      exact ih hscan hbest
    · cases hscan
      exact ⟨rfl, h⟩

/-! ## How an image is started -/

theorem prompt_mem (s : Loader) : (prompt s).mem = s.mem := by
  rw [prompt, putstr_mem, putstr_mem, putstr_mem]

theorem puthex_mem (s : Loader) (x : BitVec 32) : (s.puthex x).mem = s.mem := putstr_mem _ _

theorem start_spec (s : Loader) {a : Addr} (h : Apart s.mem a) :
    ∃ s', start s a = .jumped s' (startupVaddr (header s.mem a)) ∧
      (∀ k < startupSize (header s.mem a), s'.mem (ramAddr s.mem a + k) = patched s.mem a k) ∧
      ∀ k, startupSize (header s.mem a) ≤ k → k < storedSize (header s.mem a) →
        s'.mem (a + k) = s.mem (a + k) := by
  unfold start
  dsimp only
  generalize hs₁ : ((s.putstr "Found image               @ 0x").puthex a).putstr "\n" = s₁
  have hmem₁ : s₁.mem = s.mem := by
    rw [← hs₁, putstr_mem, puthex_mem, putstr_mem]
  generalize hs₂ : ((((imageSetup s₁ a).putstr "Jumping to startup        @ 0x").puthex
    (startupVaddr ((imageSetup s₁ a).putstr "Jumping to startup        @ 0x").startupHdr)).putstr
    "\n\n") = s₂
  have hmem₂ : s₂.mem = (imageSetup s₁ a).mem := by
    rw [← hs₂, putstr_mem, puthex_mem, putstr_mem]
  rw [← hmem₁] at h ⊢
  have hheader : ∀ o : Addr, o.toNat < 40 → header s₂.mem a o = header s₁.mem a o := by
    intro o ho
    have hsize := h.header
    have hstored := h.stored
    rw [header, hmem₂]
    apply imageSetup_image s₁ h
    · exact BitVec.lt_def.mpr (by omega)
    · clear hsize hstored
      bv_omega
  have hvaddr : startupVaddr (header s₂.mem a) = startupVaddr (header s₁.mem a) := by
    unfold startupVaddr Memory.word
    rw [hheader _ (by decide), hheader _ (by decide), hheader _ (by decide),
      hheader _ (by decide)]
  refine ⟨{ s₂ with startupHdr := s₂.startupHdr.load s₂.mem a headerSize }, ?_, ?_, ?_⟩
  · rw [imageStart, (load_header s₂.startupHdr s₂.mem a).2.2.1, hvaddr]
  · intro k hk
    change s₂.mem _ = _
    rw [hmem₂, imageSetup_apply s₁ a h.header
      (h.place.imp_right fun hd => Nat.le_trans h.stored hd.1), if_pos hk]
  · intro k hk hk'
    have hpatch : 4 ≤ (k - 40).toNat := by
      have hsize := h.header
      have hle := BitVec.le_def.mp hk
      have hlong : 256 ≤ k.toNat := by omega
      clear hk hk' hsize hle
      bv_omega
    change s₂.mem _ = _
    rw [hmem₂, imageSetup_image s₁ h hk' hpatch]

/-- An image behind `n` words that are none, which reaches to the end of what is scanned. -/
structure Bootable (mem : Memory) (n : Nat) (a : Addr) : Prop where
  place : a = qnxLoadAddr + BitVec.ofNat 32 (4 * n)
  window : n < 128
  whole : Whole mem qnxLoadAddr (qnxLoadAddr + 0x200)
  first : ∀ i < n, ¬ Checked mem (qnxLoadAddr + BitVec.ofNat 32 (4 * i))
  checked : Checked mem a
  versioned : 0 < imageVersion mem a
  long : qnxLoadAddr + 0x200 ≤ a + storedSize (header mem a)
  apart : Apart mem a

theorem images_single {mem : Memory} {stop a : Addr} (hbelow : a < stop)
    (himage : Checked mem a) (hend : stop ≤ a + storedSize (header mem a)) (n : Nat)
    {start : Addr} (ha : a = start + BitVec.ofNat 32 (4 * n)) (hle : start.toNat + 4 * n < 2 ^ 32)
    (hfirst : ∀ i < n, ¬ Checked mem (start + BitVec.ofNat 32 (4 * i))) {fuel : Nat}
    (hfuel : n + 1 < fuel) : images mem stop fuel start = some [a] := by
  induction n generalizing start fuel with
  | zero =>
    obtain ⟨fuel, rfl⟩ := Nat.exists_eq_add_of_le' hfuel
    obtain rfl : a = start := by simpa using ha
    rw [images, if_pos hbelow, if_pos himage, images, if_neg (BitVec.not_lt.mpr hend)]
    rfl
  | succ n ih =>
    obtain ⟨fuel, rfl⟩ := Nat.exists_eq_add_of_le' (Nat.zero_lt_of_lt hfuel)
    have hnone : ¬ Checked mem start := by simpa using hfirst 0 (Nat.succ_pos n)
    have hstart : start < stop := by
      clear hnone hfirst hend himage ih
      bv_omega
    have hadd : ∀ i, start + 4 + BitVec.ofNat 32 (4 * i) =
        start + BitVec.ofNat 32 (4 * (i + 1)) := by
      intro i
      rw [Nat.mul_succ, BitVec.ofNat_add, add_assoc, add_comm (BitVec.ofNat 32 (4 * i))]
      rfl
    have hnext : (start + 4).toNat + 4 * n < 2 ^ 32 := by
      clear hnone hfirst hend himage ih hadd ha hstart
      bv_omega
    rw [images, if_pos hstart, if_neg hnone]
    apply ih (by rw [hadd, ha]) hnext
    · intro i hi
      rw [hadd]
      exact hfirst (i + 1) (Nat.succ_lt_succ hi)
    · omega

theorem imageScan_bootable {s : Loader} {n : Nat} {a : Addr} (h : Bootable s.mem n a) {fuel : Nat}
    (hfuel : n + 1 < fuel) : ∃ s', s'.mem = s.mem ∧
      imageScan fuel s qnxLoadAddr (qnxLoadAddr + 0x200) = some (s', a) := by
  have hwindow := h.window
  have hle : qnxLoadAddr.toNat + 4 * n < 2 ^ 32 := by
    have hload : qnxLoadAddr.toNat = 0x16000000 := rfl
    omega
  have hbelow : a < qnxLoadAddr + 0x200 := by
    rw [h.place]
    unfold qnxLoadAddr
    clear hle hfuel
    bv_omega
  have himages := images_single hbelow h.checked h.long n h.place hle h.first hfuel
  obtain ⟨s', hmem, hscan⟩ := (imageScanLoop_images h.whole fuel ⟨s, qnxLoadAddr, 0, -1⟩ rfl
    (by simp)).2 [a] himages
  refine ⟨s', hmem, ?_⟩
  have hnewest : newest s.mem [a] = a := by
    rw [newest, List.filter_cons_of_pos (by simpa using h.versioned)]
    rfl
  rw [imageScan, hscan, foldl_newer, hnewest]

theorem imageDownloadSer_done (s : Loader) (dst : Addr) {noise : List Byte}
    (h : startCmd ∉ noise) (rs : List DataRecord) (rest : List Byte) :
    imageDownloadSer s dst (noise ++ startCmd :: (encode 0 rs ++ goCmd :: rest)) =
      .done (s.storing dst (payload rs)) rest := by
  rw [imageDownloadSer_noise s dst h, imageDownloadSer, if_neg (by simp), records_encode_append]
  exact (Ending.go rest).records_eq

/-- What the loader has in the end: the startup program in its place, the file system where it
was. -/
def Booted (mem : Memory) (a : Addr) (boot : Option Boot) : Prop :=
  ∃ s, boot = some (.jumped s (startupVaddr (header mem a))) ∧
    (∀ k < startupSize (header mem a), s.mem (ramAddr mem a + k) = patched mem a k) ∧
    ∀ k, startupSize (header mem a) ≤ k → k < storedSize (header mem a) →
      s.mem (a + k) = mem (a + k)

theorem scanAndStart_bootable {fuel : Nat} {m : Main} {n : Nat} {a : Addr}
    (h : Bootable m.loader.mem n a) (himage : m.image = qnxLoadAddr)
    (hfuel : n + 1 < fuel) :
    ∃ boot, scanAndStart fuel m = .inl boot ∧ Booted m.loader.mem a (some boot) := by
  obtain ⟨s', hmem, hscan⟩ := imageScan_bootable h hfuel
  have hfound : a ≠ 0xffffffff := by
    have hwindow := h.window
    rw [h.place]
    unfold qnxLoadAddr
    bv_omega
  have hapart := h.apart
  rw [← hmem] at hapart ⊢
  obtain ⟨s'', hstart, hspec⟩ := start_spec s' hapart
  refine ⟨_, ?_, s'', congrArg some hstart, hspec⟩
  rw [scanAndStart, himage, hscan]
  exact if_pos hfound

/-! ## The sample image at the load address -/

def sampleImage : Memory := sampleAt qnxLoadAddr

theorem sample_bootable : Bootable sampleImage 0 qnxLoadAddr := by
  refine ⟨rfl, by decide, ?_, ?_, by decide +kernel, by decide +kernel, by decide +kernel, ?_⟩
  · intro a _ _ h
    rw [sampleAt_signature h]
    decide +kernel
  · intro i hi
    exact absurd hi (Nat.not_lt_zero i)
  · refine ⟨by decide +kernel, by decide +kernel, Or.inr ?_⟩
    decide +kernel

def sampleBytes : List Byte := (List.range 516).map sampleByte

def emptyLoader : Loader := ⟨fun _ => 0, fun _ => 0, fun _ => 0, []⟩

/-- The image in records of 256, 256 and 4 bytes. -/
def sampleRecords : List DataRecord :=
  [⟨0, (0, 0, 0, 0), sampleBytes.take 256, by simp [sampleBytes], by simp [sampleBytes]⟩,
    ⟨0, (0, 0, 0, 0), (sampleBytes.drop 256).take 256, by simp [sampleBytes],
      by simp [sampleBytes]⟩,
    ⟨0, (0, 0, 0, 0), (sampleBytes.drop 256).drop 256, by simp [sampleBytes],
      by simp [sampleBytes]⟩]

theorem storeBytes_sample :
    storeBytes emptyLoader.mem qnxLoadAddr (payload sampleRecords) = sampleImage := by
  have hpayload : payload sampleRecords = sampleBytes := by
    simp only [payload, sampleRecords, List.flatMap_cons, List.flatMap_nil, List.append_nil,
      List.take_append_drop]
  have hlength : sampleBytes.length = 516 := by simp [sampleBytes]
  rw [hpayload]
  funext a
  rcases Nat.lt_or_ge (a - qnxLoadAddr).toNat sampleBytes.length with hlt | hge
  · have hstored := storeBytes_stored emptyLoader.mem qnxLoadAddr (by omega) hlt
    have ha : qnxLoadAddr + BitVec.ofNat 32 (a - qnxLoadAddr).toNat = a := by
      rw [BitVec.ofNat_toNat, BitVec.setWidth_eq, add_sub_cancel]
    rw [ha] at hstored
    rw [hstored]
    simp [sampleBytes, sampleImage, sampleAt]
  · rw [storeBytes_frame _ hge, sampleImage, sampleAt, sampleByte_behind (by omega)]
    rfl

/-! ## Runs of the loader -/

theorem scanAndStart_inr {fuel : Nat} {m m' : Main} (h : scanAndStart fuel m = .inr m') :
    m'.image = -1 := by
  unfold scanAndStart at h
  split at h
  · cases h
  · next s image _ =>
    split at h
    · cases h
    · next hfail =>
      cases h
      exact Decidable.not_not.mp hfail

theorem scanAndStart_jumped {fuel : Nat} {m : Main} {s : Loader} {vaddr : Addr}
    (h : scanAndStart fuel m = .inl (.jumped s vaddr)) :
    m.image ≠ -1 ∧ ∃ s₀ a, Accepted s₀.mem (m.image + 0x200) a ∧
      start s₀ a = .jumped s vaddr := by
  unfold scanAndStart at h
  split at h
  · cases h
  · next s₀ a hscan =>
    split at h
    · next hfound =>
      injection h with h
      obtain ⟨_, hnone | haccepted⟩ := imageScanLoop_accepts hscan (Or.inl rfl)
      · exact absurd hnone hfound
      · refine ⟨?_, s₀, a, haccepted, h⟩
        intro himage
        have hbelow : ¬ (-1 : Addr) < -1 + 0x200 := by decide
        rw [himage, imageScan] at hscan
        cases fuel with
        | zero => cases hscan
        | succ fuel =>
          rw [imageScanLoop, if_neg hbelow] at hscan
          cases hscan
          exact hfound rfl
    · cases h

section Runs
variable {sdmmcLoad : Nat → Loader → Loader × Bool} {fuel : Nat}

/-- A round waits, or goes on with the image at the same place, or ends in a scan. -/
theorem mainRound_cases (m : Main) :
    (∃ s, mainRound sdmmcLoad fuel m = .inl (.waiting s)) ∨
    (∃ m', mainRound sdmmcLoad fuel m = .inr m' ∧ m'.image = m.image) ∨
    ∃ m', mainRound sdmmcLoad fuel m = scanOrFail fuel m' ∧ m'.image = m.image := by
  unfold mainRound
  dsimp only
  split
  · exact Or.inl ⟨_, rfl⟩
  · split
    · split
      · exact Or.inl ⟨_, rfl⟩
      · exact Or.inr (Or.inl ⟨_, rfl, rfl⟩)
      · exact Or.inr (Or.inr ⟨_, rfl, rfl⟩)
    · split
      · split
        · exact Or.inr (Or.inr ⟨_, rfl, rfl⟩)
        · exact Or.inr (Or.inl ⟨_, rfl, rfl⟩)
      · exact Or.inr (Or.inl ⟨_, rfl, rfl⟩)

theorem scanOrFail_inr {m m' : Main} (h : scanOrFail fuel m = .inr m') : m'.image = -1 := by
  unfold scanOrFail at h
  cases hscan : scanAndStart fuel m with
  | inl boot =>
    rw [hscan] at h
    cases h
  | inr m₁ =>
    rw [hscan] at h
    have hgone := scanAndStart_inr hscan
    cases h
    exact hgone

theorem scanOrFail_jumped {m : Main} {s : Loader} {vaddr : Addr}
    (h : scanOrFail fuel m = .inl (.jumped s vaddr)) :
    m.image ≠ -1 ∧ ∃ s₀ a, Accepted s₀.mem (m.image + 0x200) a ∧
      start s₀ a = .jumped s vaddr := by
  unfold scanOrFail at h
  cases hscan : scanAndStart fuel m with
  | inl boot =>
    rw [hscan] at h
    cases h
    exact scanAndStart_jumped hscan
  | inr m₁ =>
    rw [hscan] at h
    cases h

theorem mainLoop_jumped {rounds : Nat} {m : Main} {s : Loader} {vaddr : Addr}
    (himage : m.image = qnxLoadAddr ∨ m.image = -1)
    (h : mainLoop sdmmcLoad fuel rounds m = some (.jumped s vaddr)) :
    m.image ≠ -1 ∧ ∃ s₀ a, Accepted s₀.mem (qnxLoadAddr + 0x200) a ∧
      start s₀ a = .jumped s vaddr := by
  induction rounds generalizing m with
  | zero => cases h
  | succ rounds ih =>
    rw [mainLoop] at h
    rcases @mainRound_cases sdmmcLoad fuel m with ⟨s', hr⟩ | ⟨m', hr, hsame⟩ | ⟨m', hr, hsame⟩
    · rw [hr] at h
      cases h
    · rw [hr] at h
      rw [← hsame] at himage ⊢
      exact ih himage h
    · rw [hr] at h
      cases hscan : scanOrFail fuel m' with
      | inl boot =>
        rw [hscan] at h
        cases h
        obtain ⟨hne, s₀, a, haccepted, hstart⟩ := scanOrFail_jumped hscan
        rw [hsame] at hne haccepted
        rw [himage.resolve_right hne] at haccepted
        exact ⟨hne, s₀, a, haccepted, hstart⟩
      | inr m₁ =>
        rw [hscan] at h
        have hgone := scanOrFail_inr hscan
        exact absurd hgone (ih (Or.inr hgone) h).1

/-- Whatever the card and the serial line bring, only an image is started whose signature, version
and checksums have been found good. -/
theorem started_accepted {rounds : Nat} {s₁ : Loader} {input : List Byte} {s : Loader}
    {vaddr : Addr} (h : main sdmmcLoad fuel rounds s₁ input = some (.jumped s vaddr)) :
    ∃ s₀ a, Accepted s₀.mem (qnxLoadAddr + 0x200) a ∧ start s₀ a = .jumped s vaddr := by
  unfold main at h
  split at h
  · split at h
    · next hscan =>
      cases h
      exact (scanAndStart_jumped hscan).2
    · next m' hscan =>
      have hgone := scanAndStart_inr hscan
      exact absurd hgone (mainLoop_jumped (Or.inr hgone) h).1
  · exact (mainLoop_jumped (Or.inl rfl) h).2

/-- The card brings the image. -/
theorem started_accepted_sample : ∃ s₀ a, Accepted (Loader.mem s₀) (qnxLoadAddr + 0x200) a := by
  obtain ⟨boot, hscan, s, hjump, _⟩ := @scanAndStart_bootable 2
    ⟨{ emptyLoader with mem := sampleImage }, qnxLoadAddr, 1, []⟩ 0 qnxLoadAddr sample_bootable
    rfl (by decide)
  have hmain : main (fun _ s => ({ s with mem := sampleImage }, true)) 2 0 emptyLoader [] =
      some boot := by
    unfold main
    dsimp only
    rw [hscan]
  rw [hjump] at hmain
  obtain ⟨s₀, a, haccepted, _⟩ := started_accepted hmain
  exact ⟨s₀, a, haccepted⟩

/-- main keeps what image_scan returns as the place of the image. So when a scan has found nothing,
no image is started any more, whatever is sent. -/
theorem no_start_after_failed_scan {m m' : Main} (h : scanAndStart fuel m = .inr m')
    (s₁ : Loader) (input : List Byte) (rounds : Nat) (s : Loader) (vaddr : Addr) :
    mainLoop sdmmcLoad fuel rounds { m' with loader := s₁, input } ≠ some (.jumped s vaddr) := by
  intro hjump
  have hgone := scanAndStart_inr h
  have hgone' : { m' with loader := s₁, input }.image = -1 := hgone
  exact absurd hgone' (mainLoop_jumped (Or.inr hgone') hjump).1

/-- Nothing is found in an empty memory, nor in what is sent then. -/
theorem no_start_after_failed_scan_empty :
    mainLoop (fun _ s => (s, false)) 200 1
        ⟨emptyLoader, -1, 1, 0x44 :: startCmd :: (encode 0 sampleRecords ++ [goCmd])⟩ ≠
      some (.jumped emptyLoader 0x10000100) := by
  have hwhole : Whole emptyLoader.mem qnxLoadAddr (qnxLoadAddr + 0x200) := by
    intro a _ _ h
    change signature (fun _ => 0) = headerSignature at h
    exact absurd h (by decide)
  have himages : images emptyLoader.mem (qnxLoadAddr + 0x200) 200 qnxLoadAddr = some [] := by
    decide +kernel
  obtain ⟨s, _, hscan⟩ := (imageScanLoop_images hwhole 200 ⟨emptyLoader, qnxLoadAddr, 0, -1⟩ rfl
    (by simp)).2 [] himages
  have hnone : scanAndStart 200 ⟨emptyLoader, qnxLoadAddr, 1, []⟩ = .inr ⟨s, -1, 1, []⟩ := by
    rw [scanAndStart, imageScan, hscan]
    rfl
  exact no_start_after_failed_scan hnone emptyLoader _ 1 emptyLoader 0x10000100

/-! ## From the serial line to the startup program -/

/-- Keys without a meaning are passed over. -/
theorem mainLoop_keys (keys : List Byte) (h : ∀ key ∈ keys, key ∉ [0x44, 0x64, 0x4d, 0x6d])
    (rounds : Nat) (m : Main) (input : List Byte) (hinput : m.input = keys ++ input) :
    ∃ m' : Main, m'.loader.mem = m.loader.mem ∧ m'.image = m.image ∧ m'.input = input ∧
      mainLoop sdmmcLoad fuel (keys.length + rounds) m = mainLoop sdmmcLoad fuel rounds m' := by
  induction keys generalizing m with
  | nil =>
    refine ⟨m, rfl, rfl, hinput, ?_⟩
    rw [List.length_nil, Nat.zero_add]
  | cons key keys ih =>
    have hkey := h key (.head _)
    simp only [List.mem_cons, List.not_mem_nil, or_false, not_or] at hkey
    have hround : mainRound sdmmcLoad fuel m =
        .inr { m with loader := prompt m.loader, input := keys ++ input } := by
      unfold mainRound
      rw [hinput]
      dsimp only [List.cons_append]
      rw [if_neg (by tauto), if_neg (by tauto)]
    obtain ⟨m', hmem, himage, hinput', hloop⟩ := ih (fun k hk => h k (.tail _ hk))
      { m with loader := prompt m.loader, input := keys ++ input } rfl
    refine ⟨m', ?_, himage, hinput', ?_⟩
    · rw [hmem]
      exact prompt_mem m.loader
    · rw [List.length_cons, Nat.add_right_comm, mainLoop, hround]
      exact hloop

end Runs

end FridaCI.Ipl
