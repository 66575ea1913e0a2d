import PacketCraftr.Foundation.Wire
import PacketCraftr.Foundation.Word

/-!
# Building packets: the buffer that layers are wrapped around

The buffer of `build/buffer.rs`: a packet is a window of its storage, and a wrap writes before and
behind it, in place, or after it moved the window to the middle, or in a larger storage. Ranges and
subtractions are checked, any allocation may fail, and an error of a wrap comes with the buffer as
it is at that point.
-/

open Exec List

namespace PacketCraftr.Build

inductive Error
  | lengthOverflow
  | packetSizeLimit (actual limit : ℕ)
  | allocationFailure (requested : ℕ)

structure PacketBuffer where
  storage : Bytes := []
  start : ℕ := 0
  stop : ℕ := 0

variable {ε : Type}

/-- Write a slice over the range `[first, last)`, which must have its length. -/
def copyFromSlice (storage : Bytes) (first last : ℕ) (bytes : Bytes) : Exec ε Bytes := do
  assert (first ≤ last ∧ last - first = bytes.length)
  overwrite storage first bytes

namespace PacketBuffer

def minimumCapacity : ℕ := 64
def headerRoom : ℕ := 96
def suffixRoom : ℕ := 64

section

variable (allocates : ℕ → Bool)

def allocateZeroed (capacity : ℕ) : Exec Error Bytes := do
  rejectIf (!allocates capacity) (.allocationFailure capacity)
  pure (replicate capacity 0)

/-- An empty buffer with room for some headers and a payload. -/
def withEstimate (payload layers maximum : ℕ) : Exec Error PacketBuffer :=
  let capacity := min (saturatingAdd (saturatingAdd (saturatingMul layers headerRoom) payload)
    suffixRoom) maximum
  if capacity = 0 then pure {}
  else do
    let stop ← sub capacity (min suffixRoom capacity)
    let storage ← allocateZeroed allocates capacity
    pure ⟨storage, stop, stop⟩

variable (b : PacketBuffer) (pre suffix : Bytes) (total maximum : ℕ)

def len : ℕ := b.stop - b.start

def asSlice : Exec ε Bytes := slice b.storage b.start b.stop

/-- Move the window to the middle of the storage. -/
def recenterAndWrap : Exec (Error × PacketBuffer) PacketBuffer := do
  let spare ← okOr (checkedSub b.storage.length total) (.lengthOverflow, b)
  let start := spare / 2
  let preEnd ← add start pre.length
  let stop ← add start total
  let payloadEnd ← sub stop suffix.length
  let payload ← b.asSlice
  let storage ← overwrite b.storage preEnd payload
  let storage ← copyFromSlice storage start preEnd pre
  let storage ← copyFromSlice storage payloadEnd stop suffix
  pure ⟨storage, start, stop⟩

/-- Copy the window to a larger storage. -/
def growAndWrap : Exec (Error × PacketBuffer) PacketBuffer := do
  let minimum := min minimumCapacity maximum
  let doubled := (checkedMul b.storage.length 2).getD maximum
  let capacity := min (max (max doubled minimum) total) maximum
  rejectIf (capacity < total) (.packetSizeLimit total maximum, b)
  let storage ← (allocateZeroed allocates capacity).mapError (·, b)
  let spare ← sub capacity total
  let start := match pre.isEmpty, suffix.isEmpty with
    | false, true => spare
    | true, false => 0
    | _, _ => spare / 2
  let preEnd ← add start pre.length
  let stop ← add start total
  let payloadEnd ← sub stop suffix.length
  let storage ← copyFromSlice storage start preEnd pre
  let payload ← b.asSlice
  let storage ← copyFromSlice storage preEnd payloadEnd payload
  let storage ← copyFromSlice storage payloadEnd stop suffix
  pure ⟨storage, start, stop⟩

def wrap : Exec (Error × PacketBuffer) PacketBuffer := do
  let total ← okOr ((checkedAdd pre.length b.len).bind (checkedAdd · suffix.length))
    (.lengthOverflow, b)
  rejectIf (maximum < total) (.packetSizeLimit total maximum, b)
  if b.start < pre.length ∨ b.storage.length - b.stop < suffix.length then do
    let additional ← okOr (checkedAdd pre.length suffix.length) (.lengthOverflow, b)
    if additional ≤ b.storage.length - b.len then b.recenterAndWrap pre suffix total
    else b.growAndWrap allocates pre suffix total maximum
  else do
    let start ← sub b.start pre.length
    let storage ← copyFromSlice b.storage start b.start pre
    let stop ← add b.stop suffix.length
    let storage ← copyFromSlice storage b.stop stop suffix
    pure ⟨storage, start, stop⟩

/-- The built packet: all of the storage, or a part of it that is shared or copied. -/
def intoBytes : Exec Error Bytes :=
  if b.start = 0 ∧ b.stop = b.storage.length then pure b.storage
  else do
    let _ ← sub b.storage.length b.len
    b.asSlice

end

end PacketBuffer

/-! ### Windows -/

/-- The bytes `x` are at the position `i`. -/
def At (s : Bytes) (i : ℕ) (x : Bytes) : Prop :=
  i + x.length ≤ s.length ∧ ∀ k < x.length, s[i + k]? = x[k]?

section

variable {s x y : Bytes} {i j : ℕ}

theorem At.append (hx : At s i x) (hy : At s (i + x.length) y) : At s i (x ++ y) := by
  refine ⟨by rw [length_append]; exact (Nat.add_assoc ..).symm.trans_le hy.1, fun k hk => ?_⟩
  rw [length_append] at hk
  rw [getElem?_append]
  split_ifs with h
  · exact hx.2 k h
  · rw [← hy.2 _ (by omega)]
    congr 1
    omega

theorem at_overwriteFrom (h : i + x.length ≤ s.length) : At (overwriteFrom s i x) i x := by
  refine ⟨by rwa [length_overwriteFrom h], fun k hk => ?_⟩
  rw [getElem?_overwriteFrom h, if_pos ⟨by omega, by omega⟩, Nat.add_sub_cancel_left]

/-- Writing beside a window leaves it. -/
theorem At.overwriteFrom (hx : At s i x) (h : j + y.length ≤ s.length)
    (hd : j + y.length ≤ i ∨ i + x.length ≤ j) : At (overwriteFrom s j y) i x := by
  refine ⟨by rw [length_overwriteFrom h]; exact hx.1, fun k hk => ?_⟩
  rw [getElem?_overwriteFrom h, if_neg (by omega), hx.2 k hk]

theorem At.slice (hx : At s i x) : (s.take (i + x.length)).drop i = x := by
  refine ext_getElem? fun k => ?_
  rw [getElem?_drop, getElem?_take]
  split_ifs with hk
  · exact hx.2 k (by omega)
  · exact (getElem?_eq_none (by omega)).symm

theorem copyFromSlice_eq (hj : j = i + x.length) (h : j ≤ s.length) :
    (copyFromSlice s i j x : Exec ε Bytes) = .ok (overwriteFrom s i x) := by
  subst hj
  rw [copyFromSlice, assert_eq ⟨Nat.le_add_right _ _, Nat.add_sub_cancel_left _ _⟩, ok_bind,
    overwrite_eq h]

end

namespace PacketBuffer

/-- The window of a buffer holds some bytes, in a storage of at most `maximum`. -/
structure Holds (b : PacketBuffer) (maximum : ℕ) (c : Bytes) : Prop where
  stop_eq : b.stop = b.start + c.length
  window : At b.storage b.start c
  storage_le : b.storage.length ≤ maximum

def Lacks (allocates : ℕ → Bool) (e : Error) : Prop :=
  ∃ n, e = .allocationFailure n ∧ allocates n = false

/-- A wrap to `length` bytes fails for want of memory or since they are too many, and leaves the
buffer. -/
def Fails (b : PacketBuffer) (allocates : ℕ → Bool) (maximum length : ℕ)
    (e : Error × PacketBuffer) : Prop :=
  e.2 = b ∧ (Lacks allocates e.1 ∨ maximum < length)

variable {b : PacketBuffer} {allocates : ℕ → Bool} {pre c suffix s : Bytes} {total maximum i : ℕ}

/-- Every way to wrap ends with the suffix, behind what is in its place. -/
theorem returns_suffix {e t : ℕ} (hp : At s i pre) (hc : At s (i + pre.length) c)
    (he : e = i + pre.length + c.length) (ht : t = e + suffix.length) (hl : t ≤ s.length)
    (hm : s.length ≤ maximum) :
    Returns (copyFromSlice s e t suffix >>= fun s => pure ⟨s, i, t⟩ : Exec ε PacketBuffer)
      (Holds · maximum (pre ++ c ++ suffix)) := by
  subst he ht
  rw [copyFromSlice_eq rfl hl, ok_bind]
  have hs := at_overwriteFrom hl
  have hj : i + pre.length + c.length = i + (pre ++ c).length := by
    rw [length_append, Nat.add_assoc]
  refine returns_pure ⟨?_, ((hp.append hc).overwriteFrom hl (.inr hj.ge)).append (hj ▸ hs), ?_⟩
  · simp only [length_append]
    omega
  · rwa [length_overwriteFrom hl]

theorem yields_allocateZeroed (capacity : ℕ) :
    (allocateZeroed allocates capacity).Yields (Lacks allocates) (·.length = capacity) :=
  yields_rejectIf_bind (fun ha => ⟨_, rfl, by simpa using ha⟩) fun _ => length_replicate

theorem yields_withEstimate (payload layers : ℕ) :
    (withEstimate allocates payload layers maximum).Yields (Lacks allocates)
      (Holds · maximum []) := by
  unfold withEstimate
  dsimp only
  set capacity := min _ maximum
  have hle : capacity ≤ maximum := min_le_right _ _
  clear_value capacity
  split_ifs with h0
  · exact yields_pure ⟨rfl, ⟨le_rfl, nofun⟩, Nat.zero_le _⟩
  · rw [sub_eq (min_le_right _ _), ok_bind]
    refine (yields_allocateZeroed capacity).bind fun s hs => yields_pure ⟨rfl, ⟨?_, nofun⟩, ?_⟩
    · exact (Nat.sub_le _ _).trans_eq hs.symm
    · exact hs.trans_le hle

variable (h : b.Holds maximum c)
include h

theorem Holds.len_eq : b.len = c.length := by
  rw [len, h.stop_eq, Nat.add_sub_cancel_left]

theorem Holds.asSlice_eq : (b.asSlice : Exec ε Bytes) = .ok c := by
  have hw := h.window
  rw [asSlice, h.stop_eq, slice_eq (Nat.le_add_right _ _) hw.1, hw.slice]

theorem Holds.intoBytes_eq : b.intoBytes = .ok c := by
  have hw := h.window
  rw [intoBytes]
  split_ifs with hb
  · have hs : b.asSlice = (.ok c : Exec Error Bytes) := h.asSlice_eq
    rwa [asSlice, hb.1, hb.2, slice_eq (Nat.zero_le _) le_rfl, take_length, drop_zero] at hs
  · rw [h.len_eq, sub_eq (by have := hw.1; omega), ok_bind, h.asSlice_eq]

variable (hm : maximum < wordLimit) (ht : total = pre.length + c.length + suffix.length)
include hm ht

theorem Holds.recenter (hr : total ≤ b.storage.length) :
    (b.recenterAndWrap pre suffix total).Returns (Holds · maximum (pre ++ c ++ suffix)) := by
  have hle := h.storage_le
  unfold recenterAndWrap
  rw [okOr_checkedSub hr, ok_bind]
  dsimp only
  set i := (b.storage.length - total) / 2 with hi
  have h₁ : i + pre.length + c.length ≤ b.storage.length := by omega
  have h₂ : i + pre.length ≤ (overwriteFrom b.storage (i + pre.length) c).length := by
    rw [length_overwriteFrom h₁]
    omega
  rw [add_eq (by omega), ok_bind, add_eq (by omega), ok_bind, sub_eq (by omega), ok_bind,
    h.asSlice_eq, ok_bind, overwrite_eq h₁, ok_bind, copyFromSlice_eq rfl h₂, ok_bind]
  refine returns_suffix (at_overwriteFrom h₂)
    ((at_overwriteFrom h₁).overwriteFrom h₂ (.inl le_rfl)) (by omega) (by omega) ?_ ?_ <;>
    rw [length_overwriteFrom h₂, length_overwriteFrom h₁] <;> omega

theorem Holds.grow (htm : total ≤ maximum) :
    (b.growAndWrap allocates pre suffix total maximum).Yields (b.Fails allocates maximum total)
      (Holds · maximum (pre ++ c ++ suffix)) := by
  unfold growAndWrap
  dsimp only
  set capacity := min (max (max ((checkedMul b.storage.length 2).getD maximum)
    (min minimumCapacity maximum)) total) maximum
  have hlo : total ≤ capacity := le_min (le_max_right _ _) htm
  have hhi : capacity ≤ maximum := min_le_right _ _
  clear_value capacity
  rw [rejectIf_neg hlo.not_gt, ok_bind]
  refine ((yields_allocateZeroed capacity).mapError fun e he => ⟨rfl, .inl he⟩).bind fun s hs => ?_
  rw [sub_eq hlo, ok_bind]
  generalize hi : (match pre.isEmpty, suffix.isEmpty with
      | false, true => capacity - total
      | true, false => 0
      | _, _ => (capacity - total) / 2) = i
  have hle : i ≤ capacity - total := by
    subst hi
    split <;> omega
  have h₁ : i + pre.length ≤ s.length := by omega
  have h₂ : i + pre.length + c.length ≤ (overwriteFrom s i pre).length := by
    rw [length_overwriteFrom h₁]
    omega
  rw [add_eq (by omega), ok_bind, add_eq (by omega), ok_bind, sub_eq (by omega), ok_bind,
    copyFromSlice_eq rfl h₁, ok_bind, h.asSlice_eq, ok_bind,
    copyFromSlice_eq (by omega) (by omega), ok_bind]
  refine (returns_suffix ((at_overwriteFrom h₁).overwriteFrom h₂ (.inr le_rfl))
    (at_overwriteFrom h₂) (by omega) (by omega) ?_ ?_).yields <;>
    rw [length_overwriteFrom h₂, length_overwriteFrom h₁] <;> omega

omit ht in
/-- A wrap puts its bytes around those that the buffer holds; it fails only where an allocation
fails or the packet would be too long. -/
theorem Holds.wrap (allocates : ℕ → Bool) (pre suffix : Bytes) :
    (b.wrap allocates pre suffix maximum).Yields
      (b.Fails allocates maximum (pre.length + c.length + suffix.length))
      (Holds · maximum (pre ++ c ++ suffix)) := by
  have hle := h.storage_le
  have hw := h.window
  have hst := h.stop_eq
  unfold PacketBuffer.wrap
  rw [h.len_eq]
  refine yields_okOr_bind (fun hn => ⟨rfl, .inr ?_⟩) fun total ht => ?_
  · by_contra hl
    rw [not_lt] at hl
    rw [checkedAdd_eq_some.mpr ⟨by omega, rfl⟩, Option.bind_some,
      checkedAdd_eq_some.mpr ⟨by omega, rfl⟩] at hn
    cases hn
  obtain ⟨_, hp, ht⟩ := Option.bind_eq_some_iff.mp ht
  obtain ⟨-, rfl⟩ := checkedAdd_eq_some.mp hp
  obtain ⟨hlt, rfl⟩ := checkedAdd_eq_some.mp ht
  refine yields_rejectIf_bind (fun hl => ⟨rfl, .inr hl⟩) fun hmx => ?_
  rw [not_lt] at hmx
  split_ifs with hs
  · rw [okOr_checkedAdd (by omega), ok_bind]
    split_ifs with hroom
    · exact (h.recenter hm rfl (by omega)).yields
    · exact h.grow hm rfl hmx
  · rw [not_or, not_lt, not_lt] at hs
    have hl := hw.1
    have h₁ : b.start - pre.length + pre.length ≤ b.storage.length := by omega
    have hc : At (overwriteFrom b.storage (b.start - pre.length) pre)
        (b.start - pre.length + pre.length) c := by
      rw [Nat.sub_add_cancel hs.1]
      exact hw.overwriteFrom h₁ (.inl (by omega))
    rw [sub_eq hs.1, ok_bind, copyFromSlice_eq (by omega) (by omega), ok_bind, add_eq (by omega),
      ok_bind]
    refine (returns_suffix (at_overwriteFrom h₁) hc (by omega) rfl ?_ ?_).yields <;>
      rw [length_overwriteFrom h₁] <;> omega

end PacketBuffer

/-! ### Runs -/

open PacketBuffer

/-- The buffers that an estimate and wraps lead to, with the bytes of the wraps that did not fail. -/
inductive Reaches (maximum : ℕ) : PacketBuffer → Bytes → Prop
  | start {allocates payload layers b} (h : withEstimate allocates payload layers maximum = .ok b) :
      Reaches maximum b []
  | wrap {allocates pre suffix b b' c} (h : Reaches maximum b c)
      (hw : b.wrap allocates pre suffix maximum = .ok b') : Reaches maximum b' (pre ++ c ++ suffix)
  | fail {allocates pre suffix b b' c e} (h : Reaches maximum b c)
      (hw : b.wrap allocates pre suffix maximum = Exec.fail (e, b')) : Reaches maximum b' c

theorem Reaches.holds {maximum : ℕ} {b : PacketBuffer} {c : Bytes} (hm : maximum < wordLimit)
    (h : Reaches maximum b c) : b.Holds maximum c := by
  induction h with
  | start h => exact (yields_withEstimate _ _).of_eq_ok h
  | wrap _ hw ih => exact (ih.wrap hm _ _ _).of_eq_ok hw
  | @fail allocates pre suffix b b' _ _ _ hw ih =>
    have hf := ih.wrap hm allocates pre suffix
    rw [hw] at hf
    obtain rfl : b' = b := hf.1
    exact ih

/-- The buffer is a builder of two ends: in every run, its window is within its storage, which is
within the maximum, and holds what was wrapped; a wrap adds its bytes on both sides, or leaves the
buffer since the packet would be too long or an allocation failed; nothing panics. -/
theorem Reaches.builds {maximum : ℕ} (hm : maximum < wordLimit) :
    (∀ allocates payload layers, (withEstimate allocates payload layers maximum).Yields
      (Lacks allocates) (Holds · maximum [])) ∧
    ∀ b c, Reaches maximum b c → b.Holds maximum c ∧ b.intoBytes = .ok c ∧
      ∀ allocates pre suffix, (b.wrap allocates pre suffix maximum).Yields
        (b.Fails allocates maximum (pre.length + c.length + suffix.length))
        (Holds · maximum (pre ++ c ++ suffix)) := by
  refine ⟨fun _ _ _ => yields_withEstimate _ _, fun b c h => ?_⟩
  have hb := h.holds hm
  exact ⟨hb, hb.intoBytes_eq, hb.wrap hm⟩

/-- A buffer of four bytes, whose two bytes have to be moved to make room before them. -/
theorem Reaches.builds_recentered : ∃ b, Reaches 4 b [3, 4, 1, 2] ∧ b.intoBytes = .ok [3, 4, 1, 2] := by
  have h₀ : withEstimate (fun _ => true) 0 0 4 = .ok ⟨[0, 0, 0, 0], 0, 0⟩ := rfl
  have h₁ : Reaches 4 ⟨[0, 1, 2, 0], 1, 3⟩ [1, 2] :=
    @Reaches.wrap 4 (fun _ => true) [1] [2] _ _ _ (.start h₀) rfl
  have h : Reaches 4 ⟨[3, 4, 1, 2], 0, 4⟩ [3, 4, 1, 2] :=
    @Reaches.wrap 4 (fun _ => true) [3, 4] [] _ _ _ h₁ rfl
  exact ⟨_, h, ((Reaches.builds (by decide)).2 _ _ h).2.1⟩

end PacketCraftr.Build
