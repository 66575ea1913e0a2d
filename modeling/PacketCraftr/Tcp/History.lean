import PacketCraftr.Tcp.Model

/-!
# The byte ring of emitted data

`tcp/history.rs`: a bounded byte ring whose exposed storage extent is its allocation charge. The
ring keeps `len` bytes of `storage`, in stream order from `start` on, wrapping at the end of the
storage.

`History.Valid` is the invariant behind the assertions of the ring, and `History.contents` the
bytes it keeps, in stream order. Each operation on a valid ring returns, keeps the ring valid, and
acts on the contents as the list operation of its name.
-/

open List Exec

namespace PacketCraftr.Tcp

/-- A bounded byte ring. -/
structure History where
  storage : Bytes
  start : ℕ
  len : ℕ
  deriving DecidableEq, Repr

namespace History

variable {ε : Type}

def default : History := ⟨[], 0, 0⟩

/-- A ring with room for `capacity` bytes, if its allocation is granted. -/
def new (granted : Bool) (capacity : ℕ) : Exec Error History :=
  if granted then .ok ⟨List.replicate capacity 0, 0, 0⟩
  else fail (.resource (.allocationFailed capacity))

section

variable (h : History)

def capacity : ℕ := h.storage.length

def isEmpty : Bool := h.len == 0

def clear : History := { h with start := 0, len := 0 }

-- `index` stays below twice the capacity, so that one subtraction brings it back into the storage.
def wrap (index : ℕ) : ℕ :=
  if index ≥ h.capacity then index - h.capacity else index

/-- Drop the oldest `count` bytes, or report that there are fewer. -/
def drainPrefix (count : ℕ) : Exec ε (History × Bool) :=
  if count > h.len then .ok (h, false)
  else if h.len - count = 0 then .ok (⟨h.storage, 0, 0⟩, true)
  else do
    let index ← add h.start count
    pure (⟨h.storage, h.wrap index, h.len - count⟩, true)

/-- The bytes of the range `[first, last)` as at most two contiguous pieces, in stream order. -/
def slices (first last : ℕ) : Exec ε (Bytes × Bytes) := do
  assert (first ≤ last ∧ last ≤ h.len)
  if first = last then pure ([], [])
  else
    let index ← add h.start first
    let head := h.wrap index
    let length := last - first
    let room ← sub h.capacity head
    let contiguous := min room length
    let piece ← slice h.storage head (head + contiguous)
    let wrapped ← slice h.storage 0 (length - contiguous)
    pure (piece, wrapped)

/-- Append bytes, for which there must be room. -/
def extend (bytes : Bytes) : Exec ε History := do
  let room ← sub h.capacity h.len
  assert (bytes.length ≤ room)
  if bytes.isEmpty then pure h
  else
    let index ← add h.start h.len
    let tail := h.wrap index
    let room ← sub h.capacity tail
    let contiguous := min room bytes.length
    let storage ← overwrite h.storage tail (bytes.take contiguous)
    let storage ← overwrite storage 0 (bytes.drop contiguous)
    pure { h with storage, len := h.len + bytes.length }

/-! ### Contents -/

/-- The invariant of the ring: it holds at most its capacity, starts inside its storage, and its
storage is one allocation. -/
structure Valid : Prop where
  len_le : h.len ≤ h.capacity
  start_lt : h.start < h.capacity ∨ h.start = 0
  capacity_lt : h.capacity < 2 ^ 63

/-- The bytes of the ring, in stream order. -/
def contents : Bytes :=
  (h.storage.drop h.start ++ h.storage.take h.start).take h.len

end

theorem valid_default : default.Valid := ⟨le_rfl, Or.inr rfl, by decide⟩

theorem valid_empty {s : Bytes} (h : s.length < 2 ^ 63) : Valid ⟨s, 0, 0⟩ :=
  ⟨Nat.zero_le _, Or.inr rfl, h⟩

theorem Valid.clear {h : History} (hv : h.Valid) : h.clear.Valid := valid_empty hv.capacity_lt

theorem length_contents {h : History} (hv : h.Valid) : h.contents.length = h.len := by
  have hl := hv.len_le
  simp only [contents, capacity, length_take, length_append, length_drop] at *
  omega

/-- An index below twice the capacity is wrapped at most once. -/
theorem wrap_cases (h : History) (i : ℕ) :
    h.capacity ≤ i ∧ h.wrap i + h.capacity = i ∨ i < h.capacity ∧ h.wrap i = i := by
  unfold wrap
  split_ifs with hi
  · exact Or.inl ⟨hi, Nat.sub_add_cancel hi⟩
  · exact Or.inr ⟨not_le.mp hi, rfl⟩

variable {h : History} (hv : h.Valid)
include hv

theorem getElem?_contents (i : ℕ) :
    h.contents[i]? = if i < h.len then h.storage[h.wrap (h.start + i)]? else none := by
  have hl := hv.len_le
  have hs := hv.start_lt
  have hw := h.wrap_cases (h.start + i)
  have hd : (h.storage.drop h.start).length = h.capacity - h.start := length_drop
  unfold contents
  split_ifs with hi
  · rw [getElem?_take_of_lt hi]
    by_cases hc : h.start + i < h.capacity
    · rw [getElem?_append_left (by omega), getElem?_drop]
      congr 1
      omega
    · rw [getElem?_append_right (by omega), hd, getElem?_take_of_lt (by omega)]
      congr 1
      omega
  · exact getElem?_eq_none (by rw [length_take]; omega)

theorem drainPrefix_spec {count : ℕ} (hc : count ≤ h.len) :
    (h.drainPrefix count : Exec ε _).Returns fun (h', done) => done = true ∧ h'.Valid ∧
      h'.capacity = h.capacity ∧ h'.contents = h.contents.drop count := by
  have hl := hv.len_le
  have hs := hv.start_lt
  have hcap := hv.capacity_lt
  unfold drainPrefix
  rw [if_neg (by omega)]
  split_ifs with ha
  · refine ⟨_, rfl, rfl, valid_empty hcap, rfl, ?_⟩
    exact (drop_eq_nil_of_le (by rw [length_contents hv]; omega)).symm
  · have hw := h.wrap_cases (h.start + count)
    have hv' : Valid ⟨h.storage, h.wrap (h.start + count), h.len - count⟩ :=
      ⟨(Nat.sub_le _ _).trans hl, Or.inl (by change h.wrap _ < h.capacity; omega), hcap⟩
    rw [add_eq (by unfold wordLimit; omega), ok_bind]
    refine ⟨_, rfl, rfl, hv', rfl, ext_getElem? fun i => ?_⟩
    rw [getElem?_drop, getElem?_contents hv', getElem?_contents hv]
    have hcn : i < h.len - count ↔ count + i < h.len := by omega
    simp only [hcn]
    split_ifs with hi
    · have hnew := wrap_cases ⟨h.storage, h.wrap (h.start + count), h.len - count⟩
        (h.wrap (h.start + count) + i)
      have hold := h.wrap_cases (h.start + (count + i))
      have hsm : capacity ⟨h.storage, h.wrap (h.start + count), h.len - count⟩ = h.capacity := rfl
      congr 1
      omega
    · rfl

theorem slices_spec {first last : ℕ} (hf : first ≤ last) (hl : last ≤ h.len) :
    (h.slices first last : Exec ε _).Returns fun (head, tail) =>
      head ++ tail = (h.contents.take last).drop first := by
  have hlen := hv.len_le
  have hs := hv.start_lt
  have hcap := hv.capacity_lt
  unfold slices
  rw [assert_eq ⟨hf, hl⟩, ok_bind]
  split_ifs with heq
  · refine ⟨_, rfl, ?_⟩
    exact (drop_eq_nil_of_le (by rw [length_take]; omega)).symm
  · have hw := h.wrap_cases (h.start + first)
    rw [add_eq (by unfold wordLimit; omega), ok_bind]
    dsimp only
    set head := h.wrap (h.start + first) with hh
    rw [sub_eq (by omega), ok_bind]
    set contiguous := min (h.capacity - head) (last - first) with hc
    have hsr : h.storage.length = h.capacity := rfl
    rw [slice_eq (by omega) (by omega), ok_bind, slice_eq (by omega) (by omega), ok_bind]
    refine ⟨_, rfl, ext_getElem? fun i => ?_⟩
    dsimp only
    have hp : ((h.storage.take (head + contiguous)).drop head).length = contiguous := by
      rw [length_drop, length_take]
      omega
    have hwr := h.wrap_cases (h.start + (first + i))
    rw [getElem?_drop, getElem?_take]
    by_cases hi : i < last - first
    · rw [if_pos (by omega), getElem?_contents hv, if_pos (by omega)]
      by_cases hcut : i < contiguous
      · rw [getElem?_append_left (by omega), getElem?_drop, getElem?_take_of_lt (by omega)]
        congr 1
        omega
      · rw [getElem?_append_right (by omega), hp, drop_zero, getElem?_take_of_lt (by omega)]
        congr 1
        omega
    · rw [if_neg (by omega)]
      refine getElem?_eq_none ?_
      rw [length_append, hp, length_drop, length_take]
      omega

theorem extend_spec (bytes : Bytes) (hb : h.len + bytes.length ≤ h.capacity) :
    (h.extend bytes : Exec ε _).Returns fun h' => h'.Valid ∧ h'.capacity = h.capacity ∧
      h'.contents = h.contents ++ bytes := by
  have hl := hv.len_le
  have hs := hv.start_lt
  have hcap := hv.capacity_lt
  have hsr : h.storage.length = h.capacity := rfl
  unfold extend
  rw [sub_eq hl, ok_bind, assert_eq (by omega), ok_bind]
  split_ifs with he
  · rw [List.isEmpty_iff] at he
    exact ⟨h, rfl, hv, rfl, by rw [he, append_nil]⟩
  · have hp : 0 < bytes.length := length_pos_iff.mpr (by simpa using he)
    have hw := h.wrap_cases (h.start + h.len)
    rw [add_eq (by unfold wordLimit; omega), ok_bind]
    dsimp only
    set tail := h.wrap (h.start + h.len) with ht
    rw [sub_eq (by omega), ok_bind]
    set contiguous := min (h.capacity - tail) bytes.length with hc
    have hf : tail + (bytes.take contiguous).length ≤ h.storage.length := by
      rw [length_take]
      omega
    rw [overwrite_eq hf, ok_bind]
    have hl₁ := length_overwriteFrom hf
    have hsc : 0 + (bytes.drop contiguous).length ≤
        (overwriteFrom h.storage tail (bytes.take contiguous)).length := by
      rw [hl₁, length_drop]
      omega
    rw [overwrite_eq hsc, ok_bind]
    have hl₂ := (length_overwriteFrom hsc).trans hl₁
    set storage := overwriteFrom (overwriteFrom h.storage tail (bytes.take contiguous)) 0
      (bytes.drop contiguous) with hsg
    set h' : History := ⟨storage, h.start, h.len + bytes.length⟩ with hh'
    have hcap' : h'.capacity = h.capacity := hl₂
    have hv' : h'.Valid := ⟨by rw [hcap']; exact hb, by rw [hcap']; exact hs,
      by rw [hcap']; exact hcap⟩
    refine ⟨h', rfl, hv', hcap', ext_getElem? fun i => ?_⟩
    have hwr := h.wrap_cases (h.start + i)
    have hsm : h'.wrap (h'.start + i) = h.wrap (h.start + i) := by
      have hs' : h'.start = h.start := rfl
      simp only [wrap, hcap', hs']
    have hby : h'.storage[h.wrap (h.start + i)]? =
        if 0 ≤ h.wrap (h.start + i) ∧ h.wrap (h.start + i) < 0 + (bytes.length - contiguous) then
          (bytes.drop contiguous)[h.wrap (h.start + i) - 0]?
        else if tail ≤ h.wrap (h.start + i) ∧
            h.wrap (h.start + i) < tail + min contiguous bytes.length then
          (bytes.take contiguous)[h.wrap (h.start + i) - tail]?
        else h.storage[h.wrap (h.start + i)]? := by
      rw [← length_drop, ← length_take, ← getElem?_overwriteFrom hf, ← getElem?_overwriteFrom hsc]
    rw [getElem?_contents hv', hsm, hby]
    -- Positions before the old length are untouched by both writes; those after it are in exactly
    -- one of the two written pieces.
    by_cases hold : i < h.len
    · rw [getElem?_append_left (by rw [length_contents hv]; exact hold),
        getElem?_contents hv, if_pos hold, if_pos (Nat.lt_add_right _ hold), if_neg (by omega),
        if_neg (by omega)]
    · rw [getElem?_append_right (by rw [length_contents hv]; omega), length_contents hv]
      by_cases hnew : i < h.len + bytes.length
      · rw [if_pos hnew]
        by_cases hcut : i - h.len < contiguous
        · rw [if_neg (by omega), if_pos (by omega), getElem?_take_of_lt (by omega)]
          congr 1
          omega
        · rw [if_pos (by omega), getElem?_drop]
          congr 1
          omega
      · rw [if_neg hnew, getElem?_eq_none (by omega)]

end History

end PacketCraftr.Tcp
