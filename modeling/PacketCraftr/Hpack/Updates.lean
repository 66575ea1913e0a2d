import PacketCraftr.Hpack.Decoder

/-!
# The table size updates of an HPACK block

A block may begin with table size updates. Before it is decoded, `table_size_updates` of `hpack.rs`
scans them: a second reader of the same beginning, which has to end at the same byte. It finds the
bounds of the updates that the decoder then makes.
-/

namespace PacketCraftr.Hpack

/-! ### The scan -/

/-- The bounds of some values and one more. -/
def widen (bounds : Option (ℕ × ℕ)) (value : ℕ) : Option (ℕ × ℕ) :=
  some (bounds.elim (value, value) fun (low, high) => (min low value, max high value))

section Scan

variable {E : Type} (checks : ℕ → Option E)

/-- The updates from `rest` on. Each of them takes a byte, so that `fuel` bytes are scanned. -/
def sizeUpdatesLoop : ℕ → Bytes → ℕ → Option (ℕ × ℕ) → Except (DecodeError E) (Option (ℕ × ℕ))
  | 0, _, _, bounds => .ok bounds
  | fuel + 1, rest, calls, bounds =>
    match rest with
    | [] => .ok bounds
    | first :: _ =>
      if first.toNat / 32 = 1 then do
        let calls ← check checks calls
        let (value, rest) ← wire (integer rest 5)
        if value ≥ 2 ^ 32 then .error (.wire (.compression "table size update exceeds u32"))
        else sizeUpdatesLoop fuel rest calls (widen bounds value)
      else .ok bounds

/-- The least and the greatest of the table size updates at the beginning of a block. -/
def tableSizeUpdates (block : Bytes) : Except (DecodeError E) (Option (ℕ × ℕ)) :=
  sizeUpdatesLoop checks block.length block 0 none

end Scan

theorem foldl_widen (values : List ℕ) : (values.foldl widen none).map Prod.fst = values.min? ∧
      (values.foldl widen none).map Prod.snd = values.max? := by
  have hs : ∀ (values : List ℕ) (low high : ℕ), values.foldl widen (some (low, high)) =
      some (values.foldl min low, values.foldl max high) := by
    intro values
    induction values with
    | nil => exact fun _ _ => rfl
    | cons value values ih => exact fun low high => ih (min low value) (max high value)
  cases values with
  | nil => exact ⟨rfl, rfl⟩
  | cons value values =>
    rw [List.foldl_cons, widen, Option.elim_none, hs]
    exact ⟨rfl, rfl⟩

/-! ### The updates of the decoder -/

namespace Decoder

section Applied

variable {E : Type} (checks : ℕ → Option E) (origin blockLength : ℕ) (mustShrink : Bool)

/-- The maxima that the size updates of `decodeLoop` set. -/
def appliedLoop : ℕ → Progress → List ℕ
  | 0, _ => []
  | fuel + 1, p =>
    match p.cursor.rest with
    | [] => []
    | first :: _ =>
      match representation checks origin blockLength mustShrink p first with
      | .error _ => []
      | .ok p' =>
        if first.toNat / 32 = 1 then p'.decoder.effectiveMax :: appliedLoop fuel p'
        else appliedLoop fuel p'

end Applied

variable {E : Type}

def appliedUpdates (checks : ℕ → Option E) (d : Decoder) (block : Bytes) (origin : ℕ) : List ℕ :=
  appliedLoop checks origin block.length (d.pendingMin.any (· < d.effectiveMax)) block.length
    ⟨d, ⟨block, 0⟩, [], 0, 0, true, false⟩

theorem evictFor_bounds (size fuel : ℕ) (d : Decoder) :
    (evictFor size fuel d).effectiveMax = d.effectiveMax ∧
      (evictFor size fuel d).ceiling = d.ceiling := by
  induction fuel generalizing d with
  | zero => exact ⟨rfl, rfl⟩
  | succ fuel ih =>
    rw [evictFor]
    split_ifs
    · split
      · exact ⟨rfl, rfl⟩
      · exact ih _
    · exact ⟨rfl, rfl⟩

/-- A size update that is made sets the integer that is read, which is within the ceiling. -/
theorem sizeUpdate_ok {d d' : Decoder} {rest rest' : Bytes} {r : Bool}
    (h : d.sizeUpdate rest r = (.ok rest', d')) :
    integer rest 5 = .ok (d'.effectiveMax, rest') ∧ d'.effectiveMax ≤ d.ceiling ∧
      d'.ceiling = d.ceiling := by
  unfold sizeUpdate at h
  cases hi : integer rest 5 with
  | error e => simp [hi] at h
  | ok rs =>
    obtain ⟨m, after⟩ := rs
    simp only [hi] at h
    split_ifs at h with hc <;> cases h
    obtain ⟨hm, hk⟩ := evictFor_bounds 0 d.table.length { d with effectiveMax := m }
    rw [show (evict { d with effectiveMax := m }).effectiveMax = m from hm]
    exact ⟨rfl, Nat.not_lt.mp hc, hk⟩

variable {checks : ℕ → Option E} {origin b : ℕ} {m : Bool} {p p' : Progress}
  {first : UInt8}

/-- A representation that is decoded is an update where updates are allowed, or a field. -/
theorem representation_ok (h : representation checks origin b m p first = .ok p') :
    if first.toNat / 32 = 1 then p.updating ∧ p'.updating ∧
      integer p.cursor.rest 5 = .ok (p'.decoder.effectiveMax, p'.cursor.rest) ∧
      p'.decoder.effectiveMax ≤ p.decoder.ceiling ∧ p'.decoder.ceiling = p.decoder.ceiling
    else p'.updating = false := by
  obtain ⟨calls, -, h⟩ := Except.bind_eq_ok.mp h
  dsimp only at h
  split_ifs at h ⊢ with hud
  · unfold updateStep at h
    split_ifs at h with hu
    obtain ⟨⟨rest, d⟩, hc, h⟩ := Except.bind_eq_ok.mp h
    cases h
    have ht : p.updating := eq_true_of_ne_false hu
    unfold changed at hc
    split at hc
    · cases hc
    · rename_i hs
      cases hc
      exact ⟨ht, ht, sizeUpdate_ok hs⟩
  · unfold fieldStep at h
    split_ifs at h
    split at h
    · cases h
    · obtain ⟨⟨field, lineage, charge, c⟩, -, h⟩ := Except.bind_eq_ok.mp h
      obtain ⟨d, -, h⟩ := Except.bind_eq_ok.mp h
      cases h
      rfl

/-- No update is made after a field. -/
theorem appliedLoop_of_fields {fuel : ℕ} (hp : p.updating = false)
    (h : decodeLoop checks origin b m fuel p = .ok p') :
    appliedLoop checks origin b m fuel p = [] := by
  induction fuel generalizing p with
  | zero => rfl
  | succ fuel ih =>
    rw [decodeLoop] at h
    rw [appliedLoop]
    cases hr : p.cursor.rest with
    | nil => rfl
    | cons first rest =>
      rw [hr] at h
      obtain ⟨q, hq, h⟩ := Except.bind_eq_ok.mp h
      have hs := representation_ok hq
      simp only [hq]
      split_ifs at hs ⊢
      · exact absurd hs.1 (by simp [hp])
      · exact ih hs h

/-- The scan follows the decoder as long as there are updates. -/
theorem sizeUpdatesLoop_eq {scan : ℕ → Option E} (hsc : ∀ n, scan n = none) {fuel : ℕ}
    (hp : p.updating) (hc : p.decoder.ceiling < 2 ^ 32)
    (h : decodeLoop checks origin b m fuel p = .ok p') (calls : ℕ)
    (bounds : Option (ℕ × ℕ)) :
    sizeUpdatesLoop scan fuel p.cursor.rest calls bounds =
      .ok ((appliedLoop checks origin b m fuel p).foldl widen bounds) := by
  induction fuel generalizing p calls bounds with
  | zero => rfl
  | succ fuel ih =>
    rw [decodeLoop] at h
    rw [appliedLoop]
    cases hr : p.cursor.rest with
    | nil => rfl
    | cons first rest =>
      rw [hr] at h
      obtain ⟨q, hq, h⟩ := Except.bind_eq_ok.mp h
      have hs := representation_ok hq
      rw [hr] at hs
      simp only [hq, sizeUpdatesLoop]
      split_ifs at hs ⊢
      · obtain ⟨-, hu, hi, hle, hsm⟩ := hs
        rw [check, hsc, hi]
        have hw : ¬ q.decoder.effectiveMax ≥ 2 ^ 32 := by omega
        exact (if_neg hw).trans (ih hu (hsm ▸ hc) h _ _)
      · rw [appliedLoop_of_fields hs h]
        rfl

/-- The scan agrees with the decoder. When a block is decoded, the scan of its bytes finds the least
and the greatest of the updates that decoding it makes, and none when it makes none. The ceiling of
a decoder is a word of 32 bits. -/
theorem tableSizeUpdates_eq_applied (d : Decoder) (hceiling : d.ceiling < 2 ^ 32)
    (checks scan : ℕ → Option E) (hscan : ∀ n, scan n = none) (block : Bytes) (origin : ℕ)
    {b : Block} {d' : Decoder} (h : d.decodeChecked checks block origin = (.ok b, d')) :
    ∃ bounds, tableSizeUpdates scan block = .ok bounds ∧
      bounds.map Prod.fst = (d.appliedUpdates checks block origin).min? ∧
      bounds.map Prod.snd = (d.appliedUpdates checks block origin).max? ∧
      (bounds = none ↔ d.appliedUpdates checks block origin = []) := by
  unfold decodeChecked at h
  split_ifs at h
  · cases h
  · split at h
    · cases h
    · rename_i hb
      unfold decodeBlock at hb
      split_ifs at hb
      obtain ⟨p, hl, -⟩ := Except.bind_eq_ok.mp hb
      obtain ⟨hm, hmax⟩ := foldl_widen (d.appliedUpdates checks block origin)
      refine ⟨_, sizeUpdatesLoop_eq hscan rfl hceiling hl 0 none, hm, hmax, ?_⟩
      rw [← List.min?_eq_none_iff, ← hm, Option.map_eq_none_iff]
      rfl

/-- Two updates before a field: the table is emptied and then grows to thirty bytes. -/
theorem tableSizeUpdates_eq_applied_shrunk :
    ∃ bounds, tableSizeUpdates (E := Empty) (fun _ => none) [0x20, 0x3e, 0x82] = .ok bounds ∧
      bounds.map Prod.fst = some 0 ∧ bounds.map Prod.snd = some 30 ∧
      (bounds = none ↔ [0, 30] = []) :=
  tableSizeUpdates_eq_applied ⟨[], 0, 0, 4096, 4096, none, ⟨16, 64, 2, 256⟩, false⟩ (by decide)
    (fun _ => none) (fun _ => none) (fun _ => rfl) [0x20, 0x3e, 0x82] 1 rfl

end Decoder

end PacketCraftr.Hpack
