import FridaCI.Ipl.Image
import Mathlib

/-!
# The serial download

ipl/lib/image_download_ser.c: the receiver of the records that the sender of an image puts on
the serial line, and which transmissions it accepts.
-/

namespace FridaCI.Ipl

set_option autoImplicit false

def startCmd : Byte := 0x80

def dataCmd : Byte := 0x81

def goCmd : Byte := 0x82

def abortCmd : Byte := 0x88

def abortSeq : Byte := 2

def abortProtocol : Byte := 3

def downloadAbort (s : Loader) (abort : Byte) : Loader := (s.putchar abortCmd).putchar abort

/-- What a download comes to, with the bytes that are left; `waiting` for a byte that never
comes. -/
inductive Download where
  | done (s : Loader) (rest : List Byte)
  | failed (s : Loader) (rest : List Byte)
  | waiting (s : Loader)

/-- The bytes are stored as they arrive. -/
def storeBytes : Memory → Addr → List Byte → Memory
  | mem, _, [] => mem
  | mem, dst, b :: bytes => storeBytes (mem.store dst b) (dst + 1) bytes

/-- The loop over the records. A header has the bytes cmd, seq, cksum and nbytes and the four bytes
of daddr. -/
def records (seq : Byte) (s : Loader) (dst : Addr) : List Byte → Download
  | [] => .waiting s
  | cmd :: input =>
    if cmd ≠ dataCmd then
      if cmd = goCmd then .done s input else .failed (downloadAbort s abortProtocol) input
    else
      match input with
      | recordSeq :: _ :: nbytes :: _ :: _ :: _ :: _ :: input =>
        if seq ≠ recordSeq then .failed (downloadAbort s abortSeq) input
        else
          let n := nbytes.toNat + 1
          if input.length < n then .waiting { s with mem := storeBytes s.mem dst input }
          else
            records ((seq + 1) &&& 0x7f) { s with mem := storeBytes s.mem dst (input.take n) }
              (dst + BitVec.ofNat 32 n) (input.drop n)
      | _ => .waiting s
termination_by input => input.length
decreasing_by simp; omega

def imageDownloadSer (s : Loader) (dst : Addr) : List Byte → Download
  | [] => .waiting s
  | b :: input => if b ≠ startCmd then imageDownloadSer s dst input else records 0 s dst input

/-! ## What is sent -/

/-- Neither the checksum nor the address is looked at. -/
structure DataRecord where
  cksum : Byte
  daddr : Byte × Byte × Byte × Byte
  data : List Byte
  nonempty : 0 < data.length
  fits : data.length ≤ 256

def DataRecord.nbytes (r : DataRecord) : Byte := BitVec.ofNat 8 (r.data.length - 1)

def DataRecord.encode (r : DataRecord) (seq : Byte) : List Byte :=
  dataCmd :: seq :: r.cksum :: r.nbytes :: r.daddr.1 :: r.daddr.2.1 :: r.daddr.2.2.1 ::
    r.daddr.2.2.2 :: r.data

def encode : Byte → List DataRecord → List Byte
  | _, [] => []
  | seq, r :: rs => r.encode seq ++ encode ((seq + 1) &&& 0x7f) rs

/-- The number of the record behind `n` others. -/
def seqAfter : Byte → Nat → Byte
  | seq, 0 => seq
  | seq, n + 1 => seqAfter ((seq + 1) &&& 0x7f) n

def payload (rs : List DataRecord) : List Byte := rs.flatMap DataRecord.data

def Loader.storing (s : Loader) (dst : Addr) (bytes : List Byte) : Loader :=
  { s with mem := storeBytes s.mem dst bytes }

/-! ## One record -/

theorem storeBytes_append (mem : Memory) (dst : Addr) (l l' : List Byte) :
    storeBytes mem dst (l ++ l') =
      storeBytes (storeBytes mem dst l) (dst + BitVec.ofNat 32 l.length) l' := by
  induction l generalizing mem dst with
  | nil => simp [storeBytes]
  | cons b l ih =>
    have hadd : dst + 1 + BitVec.ofNat 32 l.length = dst + BitVec.ofNat 32 (b :: l).length := by
      rw [List.length_cons]
      bv_omega
    rw [List.cons_append, storeBytes, ih, hadd, storeBytes]

theorem toNat_nbytes (r : DataRecord) : r.nbytes.toNat + 1 = r.data.length := by
  have hpos := r.nonempty
  have hfits := r.fits
  rw [DataRecord.nbytes, BitVec.toNat_ofNat]
  omega

theorem records_encode (r : DataRecord) (seq : Byte) (s : Loader) (dst : Addr)
    (input : List Byte) :
    records seq s dst (r.encode seq ++ input) =
      records ((seq + 1) &&& 0x7f) (s.storing dst r.data)
        (dst + BitVec.ofNat 32 r.data.length) input := by
  have hlen : ¬ (r.data ++ input).length < r.nbytes.toNat + 1 := by
    rw [toNat_nbytes, List.length_append]
    omega
  rw [DataRecord.encode]
  simp only [List.cons_append]
  rw [records, if_neg (by decide)]
  dsimp only
  rw [if_neg (by simp), if_neg hlen, toNat_nbytes, List.take_left, List.drop_left]
  rfl

theorem records_encode_append (rs : List DataRecord) (seq : Byte) (s : Loader) (dst : Addr)
    (input : List Byte) :
    records seq s dst (encode seq rs ++ input) =
      records (seqAfter seq rs.length) (s.storing dst (payload rs))
        (dst + BitVec.ofNat 32 (payload rs).length) input := by
  induction rs generalizing seq s dst with
  | nil => simp [encode, seqAfter, payload, Loader.storing, storeBytes]
  | cons r rs ih =>
    have hpayload : payload (r :: rs) = r.data ++ payload rs := rfl
    have hadd : dst + BitVec.ofNat 32 r.data.length + BitVec.ofNat 32 (payload rs).length =
        dst + BitVec.ofNat 32 (payload (r :: rs)).length := by
      rw [hpayload, List.length_append]
      bv_omega
    rw [encode, List.append_assoc, records_encode, ih, hadd, List.length_cons, seqAfter, hpayload]
    simp only [Loader.storing, storeBytes_append]

/-! ## Every input -/

/-- What can come behind the last whole record: the go command, any other command, a record with
a wrong number, or nothing but the beginning of a record. -/
inductive Ending (seq : Byte) (s : Loader) (dst : Addr) : List Byte → Download → Prop where
  | go (rest : List Byte) : Ending seq s dst (goCmd :: rest) (.done s rest)
  | command {cmd : Byte} (rest : List Byte) (hdata : cmd ≠ dataCmd) (hgo : cmd ≠ goCmd) :
      Ending seq s dst (cmd :: rest) (.failed (downloadAbort s abortProtocol) rest)
  | sequence {recordSeq : Byte} (cksum nbytes d₀ d₁ d₂ d₃ : Byte) (rest : List Byte)
      (h : recordSeq ≠ seq) :
      Ending seq s dst (dataCmd :: recordSeq :: cksum :: nbytes :: d₀ :: d₁ :: d₂ :: d₃ :: rest)
        (.failed (downloadAbort s abortSeq) rest)
  | nothing : Ending seq s dst [] (.waiting s)
  | header {input : List Byte} (h : input.length < 7) :
      Ending seq s dst (dataCmd :: input) (.waiting s)
  | data (cksum nbytes d₀ d₁ d₂ d₃ : Byte) {input : List Byte}
      (h : input.length < nbytes.toNat + 1) :
      Ending seq s dst (dataCmd :: seq :: cksum :: nbytes :: d₀ :: d₁ :: d₂ :: d₃ :: input)
        (.waiting (s.storing dst input))

theorem records_short {input : List Byte} (h : input.length < 7) (seq : Byte) (s : Loader)
    (dst : Addr) : records seq s dst (dataCmd :: input) = .waiting s := by
  have hshort : ∀ (seq b nbytes d₀ d₁ d₂ d₃ : Byte) (rest : List Byte),
      input = seq :: b :: nbytes :: d₀ :: d₁ :: d₂ :: d₃ :: rest → False := by
    rintro seq b nbytes d₀ d₁ d₂ d₃ rest rfl
    simp only [List.length_cons] at h
    omega
  rw [records, if_neg (by decide)]
  exact hshort

theorem Ending.records_eq {seq : Byte} {s : Loader} {dst : Addr} {input : List Byte}
    {d : Download} (h : Ending seq s dst input d) : records seq s dst input = d := by
  cases h with
  | go rest =>
    unfold records
    dsimp only
    rw [if_pos (by decide), if_pos rfl]
  | command rest hdata hgo =>
    unfold records
    dsimp only
    rw [if_pos hdata, if_neg hgo]
  | sequence cksum nbytes d₀ d₁ d₂ d₃ rest h =>
    rw [records, if_neg (by decide)]
    dsimp only
    rw [if_pos (Ne.symm h)]
  | nothing => rw [records]
  | header h => exact records_short h seq s dst
  | data cksum nbytes d₀ d₁ d₂ d₃ h =>
    rw [records, if_neg (by decide)]
    dsimp only
    rw [if_neg (by simp), if_pos h]
    rfl

/-- Whole records and an ending. -/
def Received (seq : Byte) (s : Loader) (dst : Addr) (input : List Byte) (d : Download) : Prop :=
  ∃ rs tail, input = encode seq rs ++ tail ∧
    Ending (seqAfter seq rs.length) (s.storing dst (payload rs))
      (dst + BitVec.ofNat 32 (payload rs).length) tail d

theorem Ending.received {seq : Byte} {s : Loader} {dst : Addr} {input : List Byte} {d : Download}
    (h : Ending seq s dst input d) : Received seq s dst input d := by
  refine ⟨[], input, rfl, ?_⟩
  simpa [seqAfter, payload, Loader.storing, storeBytes] using h

theorem Received.record {seq : Byte} {s : Loader} {dst : Addr} {input : List Byte} {d : Download}
    (r : DataRecord) (h : Received ((seq + 1) &&& 0x7f) (s.storing dst r.data)
      (dst + BitVec.ofNat 32 r.data.length) input d) :
    Received seq s dst (r.encode seq ++ input) d := by
  obtain ⟨rs, tail, rfl, hending⟩ := h
  have hpayload : payload (r :: rs) = r.data ++ payload rs := rfl
  have hadd : dst + BitVec.ofNat 32 r.data.length + BitVec.ofNat 32 (payload rs).length =
      dst + BitVec.ofNat 32 (payload (r :: rs)).length := by
    rw [hpayload, List.length_append]
    bv_omega
  refine ⟨r :: rs, tail, by rw [encode, List.append_assoc], ?_⟩
  rw [hadd] at hending
  simpa only [List.length_cons, seqAfter, hpayload, Loader.storing, storeBytes_append]
    using hending

/-- Whatever comes in is a sequence of whole records and an ending. -/
theorem records_received (seq : Byte) (s : Loader) (dst : Addr) (input : List Byte) :
    Received seq s dst input (records seq s dst input) := by
  fun_induction records seq s dst input with
  | case1 => exact Ending.nothing.received
  | case2 => exact (Ending.go _).received
  | case3 seq s dst cmd input hdata hgo => exact (Ending.command _ hdata hgo).received
  | case4 seq s dst cmd hdata recordSeq cksum nbytes d₀ d₁ d₂ d₃ input hseq =>
    obtain rfl := Decidable.not_not.mp hdata
    exact (Ending.sequence _ _ _ _ _ _ _ (Ne.symm hseq)).received
  | case5 seq s dst cmd hdata recordSeq cksum nbytes d₀ d₁ d₂ d₃ input hseq n hlen =>
    obtain rfl := Decidable.not_not.mp hdata
    obtain rfl := Decidable.not_not.mp hseq
    exact (Ending.data _ _ _ _ _ _ hlen).received
  | case6 seq s dst cmd hdata recordSeq cksum nbytes d₀ d₁ d₂ d₃ input hseq n hlen ih =>
    obtain rfl := Decidable.not_not.mp hdata
    obtain rfl := Decidable.not_not.mp hseq
    have htake : (input.take n).length = n := List.length_take_of_le (Nat.not_lt.mp hlen)
    have hn : n = nbytes.toNat + 1 := rfl
    let r : DataRecord := ⟨cksum, (d₀, d₁, d₂, d₃), input.take n, by omega, by omega⟩
    have hnbytes : r.nbytes = nbytes := by
      rw [DataRecord.nbytes, htake]
      simp [hn]
    have hinput : r.encode seq ++ input.drop n =
        dataCmd :: seq :: cksum :: nbytes :: d₀ :: d₁ :: d₂ :: d₃ :: input := by
      simp [DataRecord.encode, hnbytes, r]
    rw [← hinput]
    apply Received.record
    rw [show r.data.length = n from htake]
    exact ih
  | case7 seq s dst cmd input hdata hshort =>
    obtain rfl := Decidable.not_not.mp hdata
    apply (Ending.header _).received
    by_contra hlong
    obtain _ | ⟨b, _ | ⟨c, _ | ⟨n, _ | ⟨d₀, _ | ⟨d₁, _ | ⟨d₂, _ | ⟨d₃, rest⟩⟩⟩⟩⟩⟩⟩ := input
    all_goals first | exact hshort _ _ _ _ _ _ _ _ rfl | exact hlong (by simp)

theorem records_eq_iff {seq : Byte} {s : Loader} {dst : Addr} {input : List Byte}
    {d : Download} : records seq s dst input = d ↔ Received seq s dst input d := by
  constructor
  · rintro rfl
    exact records_received seq s dst input
  · rintro ⟨rs, tail, rfl, hending⟩
    rw [records_encode_append]
    exact hending.records_eq

theorem seqAfter_zero (n : Nat) : seqAfter 0 n = BitVec.ofNat 8 (n % 128) := by
  have h : ∀ n m, m < 128 → seqAfter (BitVec.ofNat 8 m) n = BitVec.ofNat 8 ((m + n) % 128) := by
    intro n
    induction n with
    | zero =>
      intro m hm
      rw [seqAfter, Nat.add_zero, Nat.mod_eq_of_lt hm]
    | succ n ih =>
      intro m hm
      have hnext : ∀ m < 128, (BitVec.ofNat 8 m + 1) &&& 0x7f = BitVec.ofNat 8 ((m + 1) % 128) := by
        decide
      rw [seqAfter, hnext m hm, ih _ (Nat.mod_lt _ (by decide)), Nat.mod_add_mod, Nat.add_assoc,
        Nat.add_comm 1 n]
  simpa using h n 0 (by decide)

theorem imageDownloadSer_noise (s : Loader) (dst : Addr) {noise : List Byte}
    (h : startCmd ∉ noise) (input : List Byte) :
    imageDownloadSer s dst (noise ++ input) = imageDownloadSer s dst input := by
  induction noise with
  | nil => rfl
  | cons b noise ih =>
    have hb : b ≠ startCmd := fun heq => h (heq ▸ .head _)
    rw [List.cons_append, imageDownloadSer, if_pos hb, ih fun hmem => h (.tail _ hmem)]

/-- The whole receiver: what it does depends on the first start command, on the whole records
behind it, numbered from zero modulo 128, and on what comes behind these. -/
theorem imageDownloadSer_eq_iff (s : Loader) (dst : Addr) (input : List Byte) (d : Download) :
    imageDownloadSer s dst input = d ↔
      (startCmd ∉ input ∧ d = .waiting s) ∨
      ∃ noise rs tail, startCmd ∉ noise ∧ input = noise ++ startCmd :: (encode 0 rs ++ tail) ∧
        Ending (BitVec.ofNat 8 (rs.length % 128)) (s.storing dst (payload rs))
          (dst + BitVec.ofNat 32 (payload rs).length) tail d := by
  constructor
  · rintro rfl
    by_cases hmem : startCmd ∈ input
    · obtain ⟨noise, rest, rfl, hnoise⟩ := List.eq_append_cons_of_mem hmem
      obtain ⟨rs, tail, rfl, hending⟩ := records_received 0 s dst rest
      rw [seqAfter_zero] at hending
      refine Or.inr ⟨noise, rs, tail, hnoise, rfl, ?_⟩
      rw [imageDownloadSer_noise s dst hnoise, imageDownloadSer, if_neg (by simp)]
      exact hending
    · refine Or.inl ⟨hmem, ?_⟩
      have h := imageDownloadSer_noise s dst hmem []
      rwa [List.append_nil, imageDownloadSer] at h
  · rintro (⟨hmem, rfl⟩ | ⟨noise, rs, tail, hnoise, rfl, hending⟩)
    · have h := imageDownloadSer_noise s dst hmem []
      rwa [List.append_nil, imageDownloadSer] at h
    · rw [imageDownloadSer_noise s dst hnoise, imageDownloadSer, if_neg (by simp), records_eq_iff]
      rw [← seqAfter_zero] at hending
      exact ⟨rs, tail, rfl, hending⟩

/-! ## Where the bytes go -/

theorem storeBytes_frame {l : List Byte} (mem : Memory) {dst a : Addr}
    (h : l.length ≤ (a - dst).toNat) : storeBytes mem dst l a = mem a := by
  induction l generalizing mem dst with
  | nil => rfl
  | cons b l ih =>
    rw [List.length_cons] at h
    have hne : a ≠ dst := by bv_omega
    rw [storeBytes, ih _ (by bv_omega), store_of_ne _ _ hne]

theorem storeBytes_stored {l : List Byte} (mem : Memory) (dst : Addr) (hlen : l.length ≤ 2 ^ 32)
    {k : Nat} (hk : k < l.length) : storeBytes mem dst l (dst + BitVec.ofNat 32 k) = l[k] := by
  induction l generalizing mem dst k with
  | nil => exact absurd hk (Nat.not_lt_zero _)
  | cons b l ih =>
    rw [List.length_cons] at hlen hk
    rw [storeBytes]
    cases k with
    | zero =>
      have hend : l.length ≤ (dst + BitVec.ofNat 32 0 - (dst + 1)).toNat := by bv_omega
      rw [storeBytes_frame _ hend]
      simp [store_self]
    | succ k =>
      have hadd : dst + BitVec.ofNat 32 (k + 1) = dst + 1 + BitVec.ofNat 32 k := by bv_omega
      rw [hadd, ih _ _ (by omega) (by omega)]
      rfl

end FridaCI.Ipl
