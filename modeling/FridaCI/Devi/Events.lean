import FridaCI.Devi.Buffer

/-!
# The queue of input events

devi/lib/photon.c. A record of the queue is an input_data_t, a header and a union; both are lists
of bytes here. The signal to the injector is left out.
-/

namespace FridaCI.Devi.Buffer

set_option autoImplicit false

def slice (data : Nat → Byte) (start len : Nat) : List Byte :=
  (List.range len).map fun i => data (start + i)

/-- The first `size` bytes are kept; `fresh` is what the block has behind them. -/
def realloc (data fresh : Nat → Byte) (size : Nat) : Nat → Byte := fun i =>
  if i < size then data i else fresh i

/-- What raw_enqueue does first when an event does not fit. -/
def grow (b : Buffer) (fresh : Nat → Byte) : Buffer :=
  let bufsize := b.bufsize * 2
  if b.cnt ≠ 0 then
    if b.tail = b.head then ⟨realloc b.data fresh b.bufsize, bufsize, bufsize / 2, 0, b.cnt⟩
    else if b.tail > b.head then
      let bytes := bufsize / 2 - b.tail
      ⟨write (write fresh b.tail (slice b.data b.tail bytes)) (b.tail + bytes)
        (slice b.data 0 b.head), bufsize, b.tail + bytes + b.head, b.tail, b.cnt⟩
    else
      ⟨write fresh b.tail (slice b.data b.tail (b.head - b.tail)), bufsize, b.head, b.tail, b.cnt⟩
  else ⟨realloc b.data fresh b.bufsize, bufsize, 0, 0, b.cnt⟩

/-- The second half of raw_enqueue. -/
def appendEvent (b : Buffer) (hdr data u : List Byte) : Option Buffer :=
  if data.length ≠ 0 then
    (b.append hdr).bind fun b =>
      (b.append data).bind fun b =>
        if data.length < u.length then b.append (u.take (u.length - data.length)) else some b
  else b.append (hdr ++ u)

/-- `hdr` and `u` are the bytes of input_data. -/
def rawEnqueue (b : Buffer) (fresh : Nat → Byte) (hdr data u : List Byte) : Option Buffer :=
  appendEvent (if data.length > b.bufsize - b.cnt then b.grow fresh else b) hdr data u

/-- inject as far as the queue goes: a round that takes nothing out is the last one. -/
def injectLoop : Nat → Buffer → Nat → Option (Buffer × List (List Byte))
  | 0, _, _ => none
  | fuel + 1, b, size =>
    (b.delete size).bind fun (b, out) =>
      if out = [] then some (b, [])
      else (injectLoop fuel b size).map fun (b, rest) => (b, out :: rest)

def inject (b : Buffer) (size : Nat) : Option (Buffer × List (List Byte)) :=
  injectLoop (b.cnt + 1) b size

/-- The bytes of one event in the queue. -/
def record (hdr data u : List Byte) : List Byte := hdr ++ data ++ u.take (u.length - data.length)

/-! ## Whole records -/

/-- No record is cut by the end of the buffer. -/
structure Holds (r : Nat) (b : Buffer) (records : List (List Byte)) : Prop where
  valid : b.Valid
  size_dvd : r ∣ b.bufsize
  tail_dvd : r ∣ b.tail
  length_eq : ∀ record ∈ records, record.length = r
  contents_eq : b.contents = records.flatten

theorem length_flatten_records {r : Nat} {records : List (List Byte)}
    (h : ∀ record ∈ records, record.length = r) : records.flatten.length = r * records.length := by
  induction records with
  | nil => rfl
  | cons record records ih =>
    rw [List.flatten_cons, List.length_append, h record List.mem_cons_self,
      ih fun other hother => h other (List.mem_cons_of_mem record hother), List.length_cons]
    ring

namespace Holds

variable {r : Nat} {b : Buffer} {records : List (List Byte)}

theorem pos (h : Holds r b records) : 0 < r := by
  have hsize := h.valid.tail_lt
  exact Nat.pos_of_dvd_of_pos h.size_dvd (by omega)

theorem cnt_eq (h : Holds r b records) : b.cnt = r * records.length := by
  rw [← length_contents, h.contents_eq, length_flatten_records h.length_eq]

/-- Less room than a record has is no room. -/
theorem room (h : Holds r b records) (hnot : b.cnt ≠ b.bufsize) : b.cnt + r ≤ b.bufsize := by
  have hcnt : r ∣ b.cnt := ⟨_, h.cnt_eq⟩
  have hlt : b.cnt < b.bufsize := Nat.lt_of_le_of_ne h.valid.cnt_le hnot
  have hle := Nat.le_of_dvd (by omega) (Nat.dvd_sub h.size_dvd hcnt)
  omega

theorem cut (h : Holds r b records) {front back : List Byte} (hdvd : r ∣ front.length)
    (hcontents : b.contents = front ++ back) : ∃ first last,
      records = first ++ last ∧ front = first.flatten ∧ back = last.flatten := by
  obtain ⟨k, hk⟩ := hdvd
  have hcnt : r * records.length = r * k + back.length := by
    rw [← h.cnt_eq, ← length_contents, hcontents, List.length_append, hk]
  have hle : k ≤ records.length := Nat.le_of_mul_le_mul_left (by omega) h.pos
  have hlength : (records.take k).flatten.length = front.length := by
    rw [length_flatten_records fun record hmem => h.length_eq record (List.mem_of_mem_take hmem),
      List.length_take, Nat.min_eq_left hle, hk]
  have hflat : (records.take k).flatten ++ (records.drop k).flatten = front ++ back := by
    rw [← List.flatten_append, List.take_append_drop, ← h.contents_eq, hcontents]
  obtain ⟨hfront, hback⟩ := List.append_inj hflat hlength
  exact ⟨records.take k, records.drop k, (List.take_append_drop k records).symm, hfront.symm,
    hback.symm⟩

end Holds

/-! ## A larger buffer -/

theorem slice_add (data : Nat → Byte) (start len more : Nat) :
    slice data start (len + more) = slice data start len ++ slice data (start + len) more := by
  unfold slice
  rw [List.range_add, List.map_append, List.map_map]
  congr 1
  apply List.map_congr_left
  intro i hi
  rw [Function.comp_apply, Nat.add_assoc]

@[simp] theorem length_slice (data : Nat → Byte) (start len : Nat) :
    (slice data start len).length = len := by
  simp [slice]

theorem contents_full {b : Buffer} (h : b.Valid) (hfull : b.cnt = b.bufsize) :
    b.contents = slice b.data b.tail (b.bufsize - b.tail) ++ slice b.data 0 b.tail := by
  have htail := h.tail_lt
  obtain ⟨_, hcontents⟩ := @contents_dropped b h (b.bufsize - b.tail) (by omega) (by omega)
  rw [hcontents]
  congr 1
  have hcnt : (b.dropped (b.bufsize - b.tail)).cnt = b.tail := by
    dsimp only [dropped]
    omega
  unfold contents slice
  rw [hcnt]
  apply List.map_congr_left
  intro i hi
  have hi := List.mem_range.mp hi
  change b.data ((b.dropped (b.bufsize - b.tail)).pos i) = b.data (0 + i)
  congr 1
  dsimp only [dropped, Buffer.pos]
  split <;> split <;> omega

theorem grow_full {b : Buffer} (h : b.Valid) (hfull : b.cnt = b.bufsize) (fresh : Nat → Byte) :
    b.grow fresh =
      ⟨realloc b.data fresh b.bufsize, b.bufsize * 2, b.bufsize * 2 / 2, 0, b.cnt⟩ := by
  have htail := h.tail_lt
  have hhead : b.tail = b.head := by
    rw [h.head_eq, Buffer.pos]
    split <;> omega
  rw [grow, if_pos (by omega), if_pos hhead]

theorem valid_grow {b : Buffer} (h : b.Valid) (hfull : b.cnt = b.bufsize) (fresh : Nat → Byte) :
    (b.grow fresh).Valid := by
  have htail := h.tail_lt
  rw [grow_full h hfull]
  refine ⟨by dsimp only; omega, by dsimp only; omega, ?_⟩
  dsimp only [Buffer.pos]
  split <;> omega

/-- A full buffer is made larger without regard to where its oldest byte is. -/
theorem contents_grow {b : Buffer} (h : b.Valid) (hfull : b.cnt = b.bufsize)
    (fresh : Nat → Byte) : (b.grow fresh).contents =
      slice b.data 0 b.tail ++ slice b.data b.tail (b.bufsize - b.tail) := by
  have htail := h.tail_lt
  have hsum := slice_add b.data 0 b.tail (b.bufsize - b.tail)
  rw [Nat.zero_add, Nat.add_sub_of_le htail.le] at hsum
  rw [← hsum, grow_full h hfull]
  unfold contents slice
  dsimp only
  rw [hfull]
  apply List.map_congr_left
  intro i hi
  have hi := List.mem_range.mp hi
  dsimp only [Buffer.pos, realloc]
  rw [if_pos (c := 0 + i < b.bufsize * 2) (by omega), if_pos (by omega)]

theorem contents_grow_rotate {b : Buffer} (h : b.Valid) (hfull : b.cnt = b.bufsize)
    (fresh : Nat → Byte) : (b.grow fresh).contents = b.contents.rotate (b.bufsize - b.tail) := by
  have hrotate := List.rotate_append_length_eq (slice b.data b.tail (b.bufsize - b.tail))
    (slice b.data 0 b.tail)
  rw [length_slice] at hrotate
  rw [contents_grow h hfull, contents_full h hfull, hrotate]

theorem Holds.grow {r : Nat} {b : Buffer} {records : List (List Byte)} (h : Holds r b records)
    (hfull : b.cnt = b.bufsize) (fresh : Nat → Byte) : ∃ turned,
      Holds r (b.grow fresh) turned ∧ turned.Perm records ∧ (b.tail = 0 → turned = records) := by
  have hvalid := h.valid
  have hdvd : r ∣ (slice b.data b.tail (b.bufsize - b.tail)).length := by
    rw [length_slice]
    exact Nat.dvd_sub h.size_dvd h.tail_dvd
  obtain ⟨first, last, hrecords, hfirst, hlast⟩ := h.cut hdvd (contents_full hvalid hfull)
  have hlength : ∀ record ∈ last ++ first, record.length = r := by
    intro record hmem
    apply h.length_eq
    rw [hrecords]
    exact List.perm_append_comm.mem_iff.mp hmem
  refine ⟨last ++ first, ⟨valid_grow hvalid hfull fresh, ?_, ?_, hlength, ?_⟩, ?_, ?_⟩
  · rw [grow_full hvalid hfull]
    exact Dvd.dvd.mul_right h.size_dvd 2
  · rw [grow_full hvalid hfull]
    exact Nat.dvd_zero r
  · rw [contents_grow hvalid hfull, hfirst, hlast, List.flatten_append]
  · rw [hrecords]
    exact List.perm_append_comm
  · intro hzero
    have hempty : r * last.length = 0 := by
      rw [← length_flatten_records fun record hmem =>
        hlength record (List.mem_append_left first hmem), ← hlast, length_slice, hzero]
    have hr := h.pos
    have hnil : last = [] := by
      rcases Nat.mul_eq_zero.mp hempty with hr' | hlast'
      · omega
      · exact List.length_eq_zero_iff.mp hlast'
    rw [hrecords, hnil, List.append_nil, List.nil_append]

/-! ## What the calls do to the records -/

theorem cnt_of_contents {b b' : Buffer} {bytes : List Byte}
    (h : b'.contents = b.contents ++ bytes) : b'.cnt = b.cnt + bytes.length := by
  rw [← length_contents, h, List.length_append, length_contents]

theorem length_record (hdr : List Byte) {data u : List Byte} (hfit : data.length ≤ u.length) :
    (record hdr data u).length = hdr.length + u.length := by
  rw [record, List.length_append, List.length_append, List.length_take]
  omega

theorem appendEvent_spec {b : Buffer} (h : b.Valid) {hdr data u : List Byte}
    (hfit : data.length ≤ u.length) (hroom : b.cnt + (hdr.length + u.length) ≤ b.bufsize) :
    ∃ b', appendEvent b hdr data u = some b' ∧ b'.Valid ∧
      b'.contents = b.contents ++ record hdr data u ∧ b'.bufsize = b.bufsize ∧
      b'.tail = b.tail := by
  rcases Nat.eq_zero_or_pos data.length with hnone | hdata
  · have hrecord : record hdr data u = hdr ++ u := by
      rw [record, List.length_eq_zero_iff.mp hnone, List.append_nil, List.length_nil, Nat.sub_zero,
        List.take_length]
    rw [appendEvent, if_neg (not_not.mpr hnone), hrecord]
    exact append_spec h (by rw [List.length_append]; omega)
  obtain ⟨b₁, h₁, hvalid₁, hcontents₁, hsize₁, htail₁⟩ :=
    @append_spec b h hdr (by omega)
  have hcnt₁ : b₁.cnt = b.cnt + hdr.length := cnt_of_contents hcontents₁
  obtain ⟨b₂, h₂, hvalid₂, hcontents₂, hsize₂, htail₂⟩ :=
    @append_spec b₁ hvalid₁ data (by omega)
  have hcnt₂ : b₂.cnt = b₁.cnt + data.length := cnt_of_contents hcontents₂
  have hpad : (u.take (u.length - data.length)).length = u.length - data.length := by
    rw [List.length_take]
    omega
  obtain ⟨b₃, h₃, hvalid₃, hcontents₃, hsize₃, htail₃⟩ :=
    @append_spec b₂ hvalid₂ (u.take (u.length - data.length)) (by omega)
  have hlast : (if data.length < u.length then b₂.append (u.take (u.length - data.length))
      else some b₂) = some b₃ := by
    split
    · exact h₃
    · next hnot =>
      have hnil : u.take (u.length - data.length) = [] := by
        rw [Nat.sub_eq_zero_of_le (by omega), List.take_zero]
      rw [hnil] at h₃
      exact h₃
  refine ⟨b₃, ?_, hvalid₃, ?_, ?_, ?_⟩
  · rw [appendEvent, if_pos (by omega), h₁, Option.bind_some, h₂, Option.bind_some, hlast]
  · rw [hcontents₃, hcontents₂, hcontents₁, record, List.append_assoc, List.append_assoc,
      List.append_assoc]
  · rw [hsize₃, hsize₂, hsize₁]
  · rw [htail₃, htail₂, htail₁]

theorem holds_appendEvent {r : Nat} {b : Buffer} {records : List (List Byte)}
    (h : Holds r b records) {hdr data u : List Byte} (hr : hdr.length + u.length = r)
    (hfit : data.length ≤ u.length) (hroom : b.cnt + r ≤ b.bufsize) :
    ∃ b', appendEvent b hdr data u = some b' ∧ Holds r b' (records ++ [record hdr data u]) := by
  obtain ⟨b', hsome, hvalid, hcontents, hsize, htail⟩ :=
    @appendEvent_spec b h.valid hdr data u hfit (by omega)
  refine ⟨b', hsome, hvalid, ?_, ?_, ?_, ?_⟩
  · rw [hsize]
    exact h.size_dvd
  · rw [htail]
    exact h.tail_dvd
  · intro other hmem
    rcases List.mem_append.mp hmem with hold | hnew
    · exact h.length_eq other hold
    · rw [List.mem_singleton.mp hnew, length_record hdr hfit, hr]
  · rw [hcontents, h.contents_eq, List.flatten_append, List.flatten_singleton]

theorem rawEnqueue_spec {r : Nat} {b : Buffer} {records : List (List Byte)}
    (h : Holds r b records) (fresh : Nat → Byte) {hdr data u : List Byte}
    (hr : hdr.length + u.length = r) (hfit : data.length ≤ u.length)
    (hkept : ¬ (data = [] ∧ b.cnt = b.bufsize)) : ∃ b' queued,
      b.rawEnqueue fresh hdr data u = some b' ∧
      Holds r b' (queued ++ [record hdr data u]) ∧ queued.Perm records ∧
      (¬ (data.length > b.bufsize - b.cnt ∧ b.tail ≠ 0) → queued = records) := by
  have hpos := h.valid.tail_lt
  rcases Nat.eq_or_lt_of_le h.valid.cnt_le with hfull | hlt
  · have hdata : 0 < data.length :=
      List.length_pos_iff.mpr fun hnil => hkept ⟨hnil, hfull⟩
    obtain ⟨turned, hturned, hperm, heq⟩ := h.grow hfull fresh
    have hroom : (b.grow fresh).cnt + r ≤ (b.grow fresh).bufsize := by
      apply hturned.room
      rw [grow_full h.valid hfull]
      dsimp only
      omega
    obtain ⟨b', hsome, hholds⟩ := holds_appendEvent hturned hr hfit hroom
    refine ⟨b', turned, ?_, hholds, hperm, ?_⟩
    · rw [rawEnqueue, if_pos (by omega)]
      exact hsome
    · intro hnot
      apply heq
      by_contra htail
      exact hnot ⟨by omega, htail⟩
  · have hroom := h.room (Nat.ne_of_lt hlt)
    obtain ⟨b', hsome, hholds⟩ := holds_appendEvent h hr hfit hroom
    refine ⟨b', records, ?_, hholds, List.Perm.refl _, fun _ => rfl⟩
    rw [rawEnqueue, if_neg (by omega)]
    exact hsome

/-- An event without data makes no buffer larger. -/
theorem rawEnqueue_lost {b : Buffer} (hfull : b.cnt = b.bufsize) (fresh : Nat → Byte)
    (hdr u : List Byte) : b.rawEnqueue fresh hdr [] u = some b := by
  rw [rawEnqueue, List.length_nil, if_neg (Nat.not_lt_zero _), appendEvent, List.length_nil,
    if_neg (not_not.mpr rfl), append, if_neg (by omega)]

/-- The block that inject takes out is the oldest record. -/
theorem delete_record {r : Nat} {b : Buffer} {records : List (List Byte)}
    (h : Holds r b records) : (records = [] ∧ b.delete r = some (b, [])) ∨
      ∃ record rest b', records = record :: rest ∧ b.delete r = some (b', record) ∧
        Holds r b' rest := by
  have hr := h.pos
  have hcnt := h.cnt_eq
  have htail := h.valid.tail_lt
  cases records with
  | nil =>
    rw [List.length_nil, Nat.mul_zero] at hcnt
    exact Or.inl ⟨rfl, delete_none (by omega)⟩
  | cons record rest =>
    rw [List.length_cons, Nat.mul_succ] at hcnt
    have hmin : min r b.cnt = r := by omega
    have hend : b.tail + r ≤ b.bufsize := by
      have hle := Nat.le_of_dvd (by omega) (Nat.dvd_sub h.size_dvd h.tail_dvd)
      omega
    have hdelete := @delete_some b r (by omega)
    rw [hmin] at hdelete
    obtain ⟨hvalid, hcontents⟩ := @contents_dropped b h.valid r (by omega) hend
    rw [h.contents_eq, List.flatten_cons] at hcontents
    have hlength : record.length = (slice b.data b.tail r).length := by
      rw [length_slice]
      exact h.length_eq record List.mem_cons_self
    obtain ⟨hrecord, hrest⟩ := List.append_inj hcontents hlength
    refine Or.inr ⟨record, rest, b.dropped r, rfl, ?_, hvalid, h.size_dvd, ?_, ?_, hrest.symm⟩
    · rw [hdelete, hrecord]
    · dsimp only [dropped]
      split
      · exact Nat.dvd_zero r
      · exact Nat.dvd_add h.tail_dvd (Nat.dvd_refl r)
    · exact fun other hmem => h.length_eq other (List.mem_cons_of_mem record hmem)

theorem injectLoop_spec {r fuel : Nat} {b : Buffer} {records : List (List Byte)}
    (h : Holds r b records) (hfuel : records.length < fuel) :
    ∃ b', injectLoop fuel b r = some (b', records) ∧ Holds r b' [] := by
  induction fuel generalizing b records with
  | zero => omega
  | succ fuel ih =>
    rw [injectLoop]
    rcases delete_record h with ⟨hnil, hnone⟩ | ⟨record, rest, b', hrecords, hsome, hholds⟩
    · subst hnil
      rw [hnone]
      exact ⟨b, rfl, h⟩
    · have hr := h.pos
      subst hrecords
      have hlength := h.length_eq record List.mem_cons_self
      have hne : record ≠ [] := List.length_pos_iff.mp (by omega)
      rw [List.length_cons] at hfuel
      obtain ⟨b'', hloop, hempty⟩ := ih hholds (by omega)
      refine ⟨b'', ?_, hempty⟩
      rw [hsome, Option.bind_some]
      dsimp only
      rw [if_neg hne, hloop]
      rfl

theorem inject_spec {r : Nat} {b : Buffer} {records : List (List Byte)} (h : Holds r b records) :
    ∃ b', b.inject r = some (b', records) ∧ Holds r b' [] := by
  apply injectLoop_spec h
  have hle := Nat.le_mul_of_pos_left records.length h.pos
  rw [← h.cnt_eq] at hle
  omega

/-! ## Runs -/

/-- The buffer, the records put into it and taken out of it, and whether it has ever been made
larger when its oldest byte was not the first one. -/
structure Queue where
  buffer : Buffer
  put : List (List Byte)
  got : List (List Byte)
  turned : Bool

/-- raw_enqueue, and one round of inject, between which raw_enqueue can run; `r` is the size of
input_data_t. -/
inductive EventCall (r : Nat) : Queue → Queue → Prop where
  | enqueue {b b' : Buffer} {put got : List (List Byte)} {turned : Bool} {hdr data u : List Byte}
      (fresh : Nat → Byte) (hr : hdr.length + u.length = r) (hfit : data.length ≤ u.length)
      (hkept : ¬ (data = [] ∧ b.cnt = b.bufsize)) (h : b.rawEnqueue fresh hdr data u = some b') :
      EventCall r ⟨b, put, got, turned⟩ ⟨b', put ++ [record hdr data u], got,
        turned || decide (data.length > b.bufsize - b.cnt ∧ b.tail ≠ 0)⟩
  | lost {b b' : Buffer} {put got : List (List Byte)} {turned : Bool} {hdr u : List Byte}
      (fresh : Nat → Byte) (hfull : b.cnt = b.bufsize)
      (h : b.rawEnqueue fresh hdr [] u = some b') :
      EventCall r ⟨b, put, got, turned⟩ ⟨b', put, got, turned⟩
  | inject {b b' : Buffer} {put got : List (List Byte)} {turned : Bool} {out : List Byte}
      (hout : out ≠ []) (h : b.delete r = some (b', out)) :
      EventCall r ⟨b, put, got, turned⟩ ⟨b', put, got ++ [out], turned⟩
  | done {b b' : Buffer} {put got : List (List Byte)} {turned : Bool}
      (h : b.delete r = some (b', [])) : EventCall r ⟨b, put, got, turned⟩ ⟨b', put, got, turned⟩

structure Queue.Kept (r : Nat) (q : Queue) (queued : List (List Byte)) : Prop where
  holds : Holds r q.buffer queued
  perm : q.put.Perm (q.got ++ queued)
  in_order : q.turned = false → q.put = q.got ++ queued

theorem Queue.Kept.call {r : Nat} {q q' : Queue} {queued : List (List Byte)}
    (hcall : EventCall r q q') (h : q.Kept r queued) : ∃ queued', q'.Kept r queued' := by
  cases hcall with
  | @enqueue b b' put got turned hdr data u fresh hr hfit hkept henqueue =>
    obtain ⟨hholds, hperm, horder⟩ := h
    obtain ⟨b'', queued', hsome, hholds', hperm', hsame⟩ :=
      rawEnqueue_spec hholds fresh hr hfit hkept
    cases hsome.symm.trans henqueue
    refine ⟨queued' ++ [record hdr data u], hholds', ?_, ?_⟩
    · change (put ++ [record hdr data u]).Perm (got ++ (queued' ++ [record hdr data u]))
      rw [← List.append_assoc]
      exact (hperm.trans (hperm'.symm.append_left got)).append_right _
    · intro hturned
      obtain ⟨hbefore, hnow⟩ := Bool.or_eq_false_iff.mp hturned
      change put ++ [record hdr data u] = got ++ (queued' ++ [record hdr data u])
      rw [← List.append_assoc, hsame (of_decide_eq_false hnow)]
      exact congrArg (· ++ [record hdr data u]) (horder hbefore)
  | @lost b b' put got turned hdr u fresh hfull henqueue =>
    cases (rawEnqueue_lost hfull fresh hdr u).symm.trans henqueue
    exact ⟨queued, h⟩
  | @inject b b' put got turned out hout hdelete =>
    obtain ⟨hholds, hperm, horder⟩ := h
    rcases delete_record hholds with ⟨_, hnone⟩ | ⟨record, rest, b'', hqueued, hsome, hholds'⟩
    · cases hnone.symm.trans hdelete
      exact absurd rfl hout
    · cases hsome.symm.trans hdelete
      subst hqueued
      refine ⟨rest, hholds', ?_, ?_⟩
      · change put.Perm (got ++ [out] ++ rest)
        rw [List.append_assoc]
        exact hperm
      · intro hturned
        change put = got ++ [out] ++ rest
        rw [List.append_assoc]
        exact horder hturned
  | @done b b' put got turned hdelete =>
    have hr := h.holds.pos
    rcases delete_record h.holds with ⟨_, hnone⟩ | ⟨record, rest, b'', hqueued, hsome, _⟩
    · cases hnone.symm.trans hdelete
      exact ⟨queued, h⟩
    · cases hsome.symm.trans hdelete
      have hlength := h.holds.length_eq [] (by rw [hqueued]; exact List.mem_cons_self)
      rw [List.length_nil] at hlength
      omega

abbrev EventCalls (data : Nat → Byte) (r : Nat) (q : Queue) : Prop :=
  Relation.ReflTransGen (EventCall r) ⟨create data 0 r, [], [], false⟩ q

theorem holds_create (data : Nat → Byte) {r : Nat} (hr : 0 < r ∧ r ≤ maxBuffBytes) :
    Holds r (create data 0 r) [] := by
  refine ⟨valid_create data (Or.inr hr), ?_, Nat.dvd_zero r, ?_, rfl⟩
  · exact Nat.dvd_sub_mod maxBuffBytes
  · intro record hmem
    cases hmem

theorem eventCalls_kept {data : Nat → Byte} {r : Nat} (hr : 0 < r ∧ r ≤ maxBuffBytes) {q : Queue}
    (h : EventCalls data r q) : ∃ queued, q.Kept r queued := by
  induction h with
  | refl => exact ⟨[], holds_create data hr, List.Perm.refl _, fun _ => rfl⟩
  | tail _ hcall ih =>
    obtain ⟨queued, hkept⟩ := ih
    exact hkept.call hcall

/-- One event, with the header 1 and the data 7. -/
def oneEvent : Buffer := ⟨write (write (fun _ => 0) 0 [1]) 1 [7], 512, 2, 0, 2⟩

end FridaCI.Devi.Buffer
