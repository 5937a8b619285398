import Mathlib

/-!
# The ring buffer of the input drivers

devi/lib/buffer.c. `head` and `tail` are offsets into the buffer, which has `bufsize` bytes. The
locks are left out.
-/

namespace FridaCI.Devi

set_option autoImplicit false

abbrev Byte := BitVec 8

structure Buffer where
  data : Nat → Byte
  bufsize : Nat
  head : Nat
  tail : Nat
  cnt : Nat

def write (data : Nat → Byte) (start : Nat) (bytes : List Byte) : Nat → Byte := fun i =>
  if start ≤ i then bytes.getD (i - start) (data i) else data i

namespace Buffer

def maxBuffBytes : Nat := 512

/-- buff_create, with whatever malloc has left in the bytes. -/
def create (data : Nat → Byte) (size rsize : Nat) : Buffer :=
  ⟨data, if size ≠ 0 then size else maxBuffBytes - maxBuffBytes % rsize, 0, 0, 0⟩

/-- `none` stands for a loop that does not come to an end. -/
def appendLoop : Nat → Buffer → List Byte → Option Buffer
  | 0, _, _ => none
  | fuel + 1, b, bytes =>
    if bytes = [] then some b
    else
      let t := min bytes.length (b.bufsize - b.head)
      if t ≠ 0 then
        let head := b.head + t
        appendLoop fuel ⟨write b.data b.head (bytes.take t), b.bufsize,
          if head ≥ b.bufsize then 0 else head, b.tail, b.cnt + t⟩ (bytes.drop t)
      else appendLoop fuel b bytes

def append (b : Buffer) (bytes : List Byte) : Option Buffer :=
  if bytes ≠ [] ∧ b.cnt < b.bufsize then appendLoop (bytes.length + 1) b bytes else some b

/-- The bytes are read from `tail` on, also beyond the end of the buffer. -/
def deleteLoop : Nat → Buffer → Nat → Option (Buffer × List Byte)
  | 0, _, _ => none
  | fuel + 1, b, n =>
    if n = 0 then some (b, [])
    else
      let t := min n b.cnt
      if t > 0 then
        let tail := b.tail + t
        let out := (List.range t).map fun i => b.data (b.tail + i)
        (deleteLoop fuel { b with
          tail := if tail ≥ b.bufsize then 0 else tail
          cnt := b.cnt - t } (n - t)).map fun (b, rest) => (b, out ++ rest)
      else some (b, [])

def delete (b : Buffer) (n : Nat) : Option (Buffer × List Byte) :=
  if b.cnt ≠ 0 then deleteLoop (n + 1) b n else some (b, [])

def putc (b : Buffer) (c : Byte) : Buffer :=
  if b.cnt < b.bufsize then
    let head := b.head + 1
    ⟨write b.data b.head [c], b.bufsize, if head ≥ b.bufsize then 0 else head, b.tail, b.cnt + 1⟩
  else b

/-- `none` stands for the result -1. -/
def getc (b : Buffer) : Option (Buffer × Byte) :=
  if b.cnt = 0 then none
  else
    let tail := b.tail + 1
    some ({ b with cnt := b.cnt - 1, tail := if tail ≥ b.bufsize then 0 else tail },
      b.data b.tail)

/-! ## What a buffer holds -/

/-- Where the byte with the number `i` is, the oldest first. -/
def pos (b : Buffer) (i : Nat) : Nat :=
  if b.tail + i < b.bufsize then b.tail + i else b.tail + i - b.bufsize

def contents (b : Buffer) : List Byte := (List.range b.cnt).map fun i => b.data (b.pos i)

structure Valid (b : Buffer) : Prop where
  tail_lt : b.tail < b.bufsize
  cnt_le : b.cnt ≤ b.bufsize
  head_eq : b.head = b.pos b.cnt

@[simp] theorem length_contents (b : Buffer) : b.contents.length = b.cnt := by simp [contents]

theorem Valid.head_lt {b : Buffer} (h : b.Valid) : b.head < b.bufsize := by
  have htail := h.tail_lt
  have hcnt := h.cnt_le
  rw [h.head_eq, pos]
  split <;> omega

theorem map_getD (bytes : List Byte) (d : Nat → Byte) :
    (List.range bytes.length).map (fun i => bytes.getD i (d i)) = bytes := by
  apply List.ext_getElem
  · rw [List.length_map, List.length_range]
  · intro i h₁ h₂
    rw [List.getElem_map, List.getElem_range, List.getD_eq_getElem _ _ h₂]

theorem write_of_not_mem {data : Nat → Byte} {start i : Nat} {bytes : List Byte}
    (h : i < start ∨ start + bytes.length ≤ i) : write data start bytes i = data i := by
  unfold write
  split
  · rw [List.getD_eq_default _ _ (by omega)]
  · rfl

/-- Bytes that fit behind `head` without a wrap. -/
theorem Valid.chunk {b : Buffer} (h : b.Valid) {bytes : List Byte}
    (hroom : b.cnt + bytes.length ≤ b.bufsize) (hfit : b.head + bytes.length ≤ b.bufsize) :
    let b' : Buffer := ⟨write b.data b.head bytes, b.bufsize,
      if b.head + bytes.length ≥ b.bufsize then 0 else b.head + bytes.length, b.tail,
      b.cnt + bytes.length⟩
    b'.Valid ∧ b'.contents = b.contents ++ bytes := by
  intro b'
  have htail := h.tail_lt
  have hhead := h.head_eq
  unfold pos at hhead
  constructor
  · refine ⟨htail, hroom, ?_⟩
    dsimp only [b', pos]
    split at hhead <;> split <;> split <;> omega
  · have hold : ∀ i < b.cnt, b'.data (b'.pos i) = b.data (b.pos i) := by
      intro i hi
      apply write_of_not_mem
      dsimp only [b', pos]
      split at hhead <;> split <;> omega
    have hnew : ∀ i < bytes.length, b'.data (b'.pos (b.cnt + i)) =
        bytes.getD i (b.data (b.head + i)) := by
      intro i hi
      have hpos : b'.pos (b.cnt + i) = b.head + i := by
        dsimp only [b', pos]
        split at hhead <;> split <;> omega
      rw [hpos]
      change write b.data b.head bytes (b.head + i) = _
      rw [write, if_pos (Nat.le_add_right _ _), Nat.add_sub_cancel_left]
    change (List.range (b.cnt + bytes.length)).map (fun i => b'.data (b'.pos i)) = _
    rw [List.range_add, List.map_append, List.map_map]
    congr 1
    · apply List.map_congr_left
      intro i hi
      exact hold i (List.mem_range.mp hi)
    · refine Eq.trans ?_ (map_getD bytes fun i => b.data (b.head + i))
      apply List.map_congr_left
      intro i hi
      exact hnew i (List.mem_range.mp hi)

theorem appendLoop_spec {fuel : Nat} {b : Buffer} (h : b.Valid) {bytes : List Byte}
    (hfuel : bytes.length < fuel) (hroom : b.cnt + bytes.length ≤ b.bufsize) :
    ∃ b', appendLoop fuel b bytes = some b' ∧ b'.Valid ∧ b'.contents = b.contents ++ bytes ∧
      b'.bufsize = b.bufsize ∧ b'.tail = b.tail := by
  induction fuel generalizing b bytes with
  | zero => omega
  | succ fuel ih =>
    rw [appendLoop]
    split
    · next hnil =>
      refine ⟨b, rfl, h, ?_, rfl, rfl⟩
      rw [hnil, List.append_nil]
    · next hne =>
      have hpos : 0 < bytes.length := List.length_pos_iff.mpr hne
      have hhead := h.head_lt
      dsimp only
      generalize ht : min bytes.length (b.bufsize - b.head) = t
      have htake : (bytes.take t).length = t := by
        rw [List.length_take]
        omega
      rw [if_pos (by omega)]
      obtain ⟨hvalid, hcontents⟩ := @Valid.chunk b h (bytes.take t) (by omega) (by omega)
      rw [htake] at hvalid hcontents
      have hdrop : (bytes.drop t).length = bytes.length - t := List.length_drop
      obtain ⟨b', hloop, hvalid', hcontents', hsize, htail⟩ :=
        @ih _ hvalid (bytes.drop t) (by omega) (by rw [hdrop]; dsimp only; omega)
      refine ⟨b', hloop, hvalid', ?_, hsize, htail⟩
      rw [hcontents', hcontents, List.append_assoc, List.take_append_drop]

/-- Bytes for which there is room come behind the others. -/
theorem append_spec {b : Buffer} (h : b.Valid) {bytes : List Byte}
    (hroom : b.cnt + bytes.length ≤ b.bufsize) :
    ∃ b', b.append bytes = some b' ∧ b'.Valid ∧ b'.contents = b.contents ++ bytes ∧
      b'.bufsize = b.bufsize ∧ b'.tail = b.tail := by
  unfold append
  split
  · exact appendLoop_spec h (Nat.lt_succ_self _) hroom
  · next hnot =>
    have hnil : bytes = [] := by
      by_contra hne
      have hpos : 0 < bytes.length := List.length_pos_iff.mpr hne
      exact hnot ⟨hne, by omega⟩
    refine ⟨b, rfl, h, ?_, rfl, rfl⟩
    rw [hnil, List.append_nil]

/-- What delete leaves after its only round. -/
def dropped (b : Buffer) (t : Nat) : Buffer :=
  { b with tail := if b.tail + t ≥ b.bufsize then 0 else b.tail + t, cnt := b.cnt - t }

theorem delete_none {b : Buffer} {n : Nat} (h : min n b.cnt = 0) : b.delete n = some (b, []) := by
  unfold delete
  split
  · rw [deleteLoop, if_pos (by omega)]
  · rfl

theorem delete_some {b : Buffer} {n : Nat} (h : 0 < min n b.cnt) :
    b.delete n = some (b.dropped (min n b.cnt),
      (List.range (min n b.cnt)).map fun i => b.data (b.tail + i)) := by
  obtain ⟨fuel, rfl⟩ : ∃ m, n = m + 1 := ⟨n - 1, by omega⟩
  rw [delete, if_pos (by omega), deleteLoop, if_neg (Nat.succ_ne_zero fuel)]
  dsimp only
  rw [if_pos h]
  have hlast : deleteLoop (fuel + 1) (b.dropped (min (fuel + 1) b.cnt))
      (fuel + 1 - min (fuel + 1) b.cnt) = some (b.dropped (min (fuel + 1) b.cnt), []) := by
    rw [deleteLoop]
    split
    · rfl
    · next hmore =>
      dsimp only [dropped]
      rw [if_neg (c := min _ _ > 0) (by omega)]
  change (deleteLoop (fuel + 1) (b.dropped (min (fuel + 1) b.cnt))
    (fuel + 1 - min (fuel + 1) b.cnt)).map _ = _
  rw [hlast, Option.map_some, List.append_nil]

/-- Bytes in front of the end of the buffer are the oldest ones. -/
theorem contents_dropped {b : Buffer} (h : b.Valid) {t : Nat} (ht : t ≤ b.cnt)
    (hend : b.tail + t ≤ b.bufsize) : (b.dropped t).Valid ∧
    b.contents = ((List.range t).map fun i => b.data (b.tail + i)) ++ (b.dropped t).contents := by
  have htail := h.tail_lt
  have hcnt := h.cnt_le
  constructor
  · have hhead := h.head_eq
    unfold pos at hhead
    refine ⟨?_, by dsimp only [dropped]; omega, ?_⟩
    · dsimp only [dropped]
      split <;> omega
    · dsimp only [dropped, pos]
      split at hhead <;> split <;> split <;> omega
  · have hsplit : b.cnt = t + (b.cnt - t) := by omega
    have hpos : ∀ i < b.cnt - t, (b.dropped t).pos i = b.pos (t + i) := by
      intro i hi
      dsimp only [dropped, pos]
      split <;> split <;> split <;> omega
    rw [contents, hsplit, List.range_add, List.map_append, List.map_map]
    congr 1
    · apply List.map_congr_left
      intro i hi
      have hi := List.mem_range.mp hi
      rw [pos, if_pos (by omega)]
    · apply List.map_congr_left
      intro i hi
      change b.data (b.pos (t + i)) = b.data ((b.dropped t).pos i)
      rw [hpos i (List.mem_range.mp hi)]

theorem putc_spec {b : Buffer} (h : b.Valid) (c : Byte) : (b.putc c).Valid ∧
    (b.putc c).contents = if b.cnt < b.bufsize then b.contents ++ [c] else b.contents := by
  unfold putc
  split
  · next hroom =>
    have hhead := h.head_lt
    exact @Valid.chunk b h [c] hroom hhead
  · exact ⟨h, rfl⟩

theorem getc_spec {b : Buffer} (h : b.Valid) :
    (b.getc = none ∧ b.contents = []) ∨
    ∃ b' c, b.getc = some (b', c) ∧ b'.Valid ∧ b.contents = c :: b'.contents := by
  have htail := h.tail_lt
  unfold getc
  split
  · next hcnt =>
    refine Or.inl ⟨rfl, ?_⟩
    rw [contents, hcnt]
    rfl
  · next hcnt =>
    obtain ⟨hvalid, hcontents⟩ := @contents_dropped b h 1 (by omega) (by omega)
    exact Or.inr ⟨_, _, rfl, hvalid, hcontents⟩

/-- A block that goes beyond the end of the buffer leaves the two ends apart. -/
theorem valid_dropped_iff {b : Buffer} (h : b.Valid) {t : Nat} (ht : t ≤ b.cnt) :
    (b.dropped t).Valid ↔ b.tail + t ≤ b.bufsize := by
  constructor
  · intro hvalid
    by_contra hend
    have hhead := h.head_eq
    have hhead' := hvalid.head_eq
    have htail := h.tail_lt
    have hcnt := h.cnt_le
    change b.head = _ at hhead'
    rw [hhead] at hhead'
    dsimp only [pos, dropped] at hhead'
    rw [if_neg (by omega), if_pos (c := b.tail + t ≥ b.bufsize) (by omega),
      if_pos (by omega)] at hhead'
    omega
  · exact fun hend => (contents_dropped h ht hend).1

theorem valid_create (data : Nat → Byte) {size rsize : Nat}
    (h : 0 < size ∨ 0 < rsize ∧ rsize ≤ maxBuffBytes) : (create data size rsize).Valid := by
  have hpos : 0 < (create data size rsize).bufsize := by
    dsimp only [create]
    split
    · omega
    · have hmod := Nat.mod_lt maxBuffBytes (show rsize > 0 by omega)
      have hle := Nat.mod_le maxBuffBytes rsize
      rcases Nat.lt_or_ge rsize maxBuffBytes with hlt | hge
      · omega
      · obtain rfl : rsize = maxBuffBytes := by omega
        rw [Nat.mod_self]
        decide
  have hstart : (create data size rsize).pos 0 = 0 := if_pos hpos
  exact ⟨hpos, Nat.zero_le _, hstart.symm⟩

/-! ## Runs -/

/-- A buffer, what has been put into it, and what has been taken out or thrown away. -/
structure Log where
  buffer : Buffer
  put : List Byte
  got : List Byte

/-- Nothing is appended for which there is no room, and no block is taken out that goes beyond the
end of the buffer: the code checks neither. -/
inductive BufferCall : Log → Log → Prop where
  | append {b b' : Buffer} {put got bytes : List Byte}
      (hroom : b.cnt + bytes.length ≤ b.bufsize) (h : b.append bytes = some b') :
      BufferCall ⟨b, put, got⟩ ⟨b', put ++ bytes, got⟩
  | delete {b b' : Buffer} {put got out : List Byte} {n : Nat}
      (hend : b.tail + min n b.cnt ≤ b.bufsize) (h : b.delete n = some (b', out)) :
      BufferCall ⟨b, put, got⟩ ⟨b', put, got ++ out⟩
  | putc {b : Buffer} {put got : List Byte} (c : Byte) (hroom : b.cnt < b.bufsize) :
      BufferCall ⟨b, put, got⟩ ⟨b.putc c, put ++ [c], got⟩
  | full {b : Buffer} {put got : List Byte} (c : Byte) (hfull : ¬ b.cnt < b.bufsize) :
      BufferCall ⟨b, put, got⟩ ⟨b.putc c, put, got⟩
  | getc {b b' : Buffer} {put got : List Byte} {c : Byte} (h : b.getc = some (b', c)) :
      BufferCall ⟨b, put, got⟩ ⟨b', put, got ++ [c]⟩

/-- Everything put in is out again, in this order, or still there. -/
structure Log.Kept (l : Log) : Prop where
  valid : l.buffer.Valid
  put_eq : l.put = l.got ++ l.buffer.contents

theorem Log.Kept.call {l l' : Log} (hcall : BufferCall l l') (h : l.Kept) : l'.Kept := by
  cases hcall with
  | @append b b' put got bytes hroom happend =>
    obtain ⟨(hvalid : b.Valid), (hput : put = got ++ b.contents)⟩ := h
    obtain ⟨b'', hsome, hvalid', hcontents, _, _⟩ := append_spec hvalid hroom
    rw [hsome] at happend
    cases happend
    refine ⟨hvalid', ?_⟩
    change put ++ bytes = got ++ b'.contents
    rw [hcontents, hput, List.append_assoc]
  | @delete b b' put got out n hend hdelete =>
    obtain ⟨(hvalid : b.Valid), (hput : put = got ++ b.contents)⟩ := h
    rcases Nat.eq_zero_or_pos (min n b.cnt) with hzero | hpos
    · rw [delete_none hzero] at hdelete
      cases hdelete
      refine ⟨hvalid, ?_⟩
      rw [List.append_nil]
      exact hput
    · rw [delete_some hpos] at hdelete
      cases hdelete
      obtain ⟨hvalid', hcontents⟩ := contents_dropped hvalid (Nat.min_le_right n b.cnt) hend
      refine ⟨hvalid', ?_⟩
      rw [List.append_assoc]
      exact hput.trans (congrArg (got ++ ·) hcontents)
  | @putc b put got c hroom =>
    obtain ⟨(hvalid : b.Valid), (hput : put = got ++ b.contents)⟩ := h
    obtain ⟨hvalid', hcontents⟩ := putc_spec hvalid c
    rw [if_pos hroom] at hcontents
    refine ⟨hvalid', ?_⟩
    change put ++ [c] = got ++ (b.putc c).contents
    rw [hcontents, hput, List.append_assoc]
  | @full b put got c hfull =>
    obtain ⟨(hvalid : b.Valid), (hput : put = got ++ b.contents)⟩ := h
    obtain ⟨hvalid', hcontents⟩ := putc_spec hvalid c
    rw [if_neg hfull] at hcontents
    exact ⟨hvalid', hput.trans (congrArg (got ++ ·) hcontents.symm)⟩
  | @getc b b' put got c hget =>
    obtain ⟨(hvalid : b.Valid), (hput : put = got ++ b.contents)⟩ := h
    rcases getc_spec hvalid with ⟨hnone, _⟩ | ⟨b'', c', hsome, hvalid', hcontents⟩
    · rw [hnone] at hget
      cases hget
    · rw [hsome] at hget
      cases hget
      refine ⟨hvalid', ?_⟩
      rw [List.append_assoc]
      exact hput.trans (congrArg (got ++ ·) hcontents)

abbrev BufferCalls (data : Nat → Byte) (size rsize : Nat) (l : Log) : Prop :=
  Relation.ReflTransGen BufferCall ⟨create data size rsize, [], []⟩ l

theorem bufferCalls_kept {data : Nat → Byte} {size rsize : Nat}
    (hsize : 0 < size ∨ 0 < rsize ∧ rsize ≤ maxBuffBytes) {l : Log}
    (h : BufferCalls data size rsize l) : l.Kept := by
  induction h with
  | refl => exact ⟨valid_create data hsize, rfl⟩
  | tail _ hcall ih => exact ih.call hcall

/-- A byte put into two bytes of room and taken out again. -/
def emptied : Buffer := ((create (fun _ => 0) 2 0).putc 1).dropped 1

end Buffer

end FridaCI.Devi
