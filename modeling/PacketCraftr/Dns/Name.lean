import Mathlib.Data.Finset.Card
import PacketCraftr.Foundation.Outcome
import PacketCraftr.Foundation.Wire
import PacketCraftr.Foundation.Word

/-!
# Compressed names

A name of a DNS message is a list of labels that ends with the root label. In the place of the
rest of a name may stand a pointer to an earlier offset at which it is spelled. Expanding a name
follows labels forward and pointers backward, so that no position of the message bounds it: the
length of the name and the number of pointers do, and a target that is met twice is refused.
-/

open List Option Except

namespace PacketCraftr.Dns

def maxLabelLen : ℕ := 63

/-- The largest expanded name, in octets on the wire with the length of each label. -/
def maxNameLen : ℕ := 255

inductive Error where
  | truncatedLabelLength (offset : ℕ)
  | truncatedPointer (offset : ℕ)
  | pointerOutOfBounds (pointer length : ℕ)
  | selfPointer (offset : ℕ)
  | forwardPointer (offset pointer : ℕ)
  | pointerLimit (limit : ℕ)
  | pointerLoop (offset : ℕ)
  | labelTooLong (offset actual : ℕ)
  | truncatedLabel (offset stop : ℕ)
  | nameTooLong
  | reservedLabelLength (offset : ℕ)
  deriving DecidableEq

/-- The labels of a name, and where its reader continues. -/
structure Decompressed where
  labels : List Bytes
  resume : ℕ
  deriving DecidableEq

structure Walk where
  cursor : ℕ
  resume : Option ℕ := none
  labels : List Bytes := []
  visited : List ℕ := []
  pointers : ℕ := 0
  wireLength : ℕ := 1

namespace Walk

def jump (message : Bytes) (maxPointers : ℕ) (w : Walk) (length : UInt8) : Except Error Walk := do
  let second ← okOr message[w.cursor + 1]? (.truncatedPointer w.cursor)
  let pointer := Wire.be16 (length &&& 0x3f) second
  rejectIf (message.length ≤ pointer) (.pointerOutOfBounds pointer message.length)
  rejectIf (pointer = w.cursor) (.selfPointer w.cursor)
  rejectIf (w.cursor < pointer) (.forwardPointer w.cursor pointer)
  let pointers := saturatingAdd w.pointers 1
  rejectIf (maxPointers < pointers) (.pointerLimit maxPointers)
  rejectIf (pointer ∈ w.visited) (.pointerLoop pointer)
  pure
    { w with
      cursor := pointer
      resume := w.resume.or (some (w.cursor + 2))
      visited := w.visited ++ [pointer]
      pointers }

/-- The turn at a label that is not the root. -/
def label (message : Bytes) (w : Walk) (length : UInt8) : Except Error Walk := do
  let start := w.cursor + 1
  rejectIf (maxLabelLen < length.toNat) (.labelTooLong w.cursor length.toNat)
  let stop := start + length.toNat
  let label ← okOr (Wire.range? message start stop) (.truncatedLabel start stop)
  let wireLength ← okOr ((checkedAdd w.wireLength length.toNat).bind (checkedAdd · 1))
    .nameTooLong
  rejectIf (maxNameLen < wireLength) .nameTooLong
  pure { w with cursor := stop, labels := w.labels ++ [label], wireLength }

/-- A turn of the loop, which returns at the root label. -/
def turn (message : Bytes) (maxPointers : ℕ) (w : Walk) : Except Error (Walk ⊕ Decompressed) := do
  let length ← okOr message[w.cursor]? (.truncatedLabelLength w.cursor)
  if length &&& 0xc0 = 0xc0 then
    let w ← w.jump message maxPointers length
    pure (.inl w)
  else if length &&& 0xc0 = 0 then
    if length = 0 then pure (.inr ⟨w.labels, w.resume.getD (w.cursor + 1)⟩)
    else
      let w ← w.label message length
      pure (.inl w)
  else .error (.reservedLabelLength w.cursor)

/-- The loop, and `none` if it does not end within so many turns. -/
def run (message : Bytes) (maxPointers : ℕ) : ℕ → Walk → Option (Except Error Decompressed)
  | 0, _ => none
  | turns + 1, w =>
    match w.turn message maxPointers with
    | .error e => some (.error e)
    | .ok (.inr name) => some (.ok name)
    | .ok (.inl w) => run message maxPointers turns w

end Walk

/-- The expansion of the name at an offset. Every turn but the last follows a label or a pointer, so
that this is `none` if there are more than `maxNameLen` labels and `maxPointers` pointers. -/
def decompress (message : Bytes) (offset maxPointers : ℕ) : Option (Except Error Decompressed) :=
  Walk.run message maxPointers (maxNameLen + maxPointers + 1) { cursor := offset }

/-! ### Following a name -/

/-- The offset that follows an offset, with the label that is passed: the one after a label, or the
target of a pointer if it lies before. -/
def next? (message : Bytes) (c : ℕ) : Option (ℕ × Option Bytes) := do
  let length ← message[c]?
  if 192 ≤ length.toNat then
    let low ← message[c + 1]?
    let target := (length.toNat - 192) * 256 + low.toNat
    if target < c then some (target, none) else none
  else if 0 < length.toNat ∧ length.toNat < 64 then
    let label ← Wire.range? message (c + 1) (c + 1 + length.toNat)
    some (c + 1 + length.toNat, some label)
  else none

/-- Following labels and strictly backward pointers from an offset spells the labels up to the root,
over a number of pointers; the reader resumes after the root label, or after the first pointer. -/
inductive Spells (message : Bytes) : ℕ → List Bytes → ℕ → ℕ → Prop
  | root {c : ℕ} (hroot : message[c]? = some 0) : Spells message c [] 0 (c + 1)
  | label {c c' pointers resume : ℕ} {label : Bytes} {labels : List Bytes}
      (hnext : next? message c = some (c', some label))
      (hrest : Spells message c' labels pointers resume) :
      Spells message c (label :: labels) pointers resume
  | pointer {c c' pointers resume : ℕ} {labels : List Bytes}
      (hnext : next? message c = some (c', none))
      (hrest : Spells message c' labels pointers resume) :
      Spells message c labels (pointers + 1) (c + 2)

def Moves (message : Bytes) (c c' : ℕ) : Prop := ∃ label, next? message c = some (c', label)

/-- Following labels and strictly backward pointers from an offset never ends. -/
def Endless (message : Bytes) (c : ℕ) : Prop :=
  ∃ path : ℕ → ℕ, path 0 = c ∧ ∀ n, Moves message (path n) (path (n + 1))

def nameLength (labels : List Bytes) : ℕ := 1 + (labels.map fun label => label.length + 1).sum

section Spelling

variable {message : Bytes} {c c' : ℕ} {l : List Bytes} {p resume : ℕ}

theorem next?_root (hroot : message[c]? = some 0) : next? message c = none := by
  simp [next?, hroot]

theorem of_next?_pointer (h : next? message c = some (c', none)) :
    c' < 16384 ∧ c + 2 ≤ message.length := by
  obtain ⟨length, -, h⟩ := bind_eq_some_iff.mp h
  split_ifs at h with hp hl
  · obtain ⟨low, hlow, h⟩ := bind_eq_some_iff.mp h
    dsimp only at h
    split_ifs at h with hb
    cases h
    have hlt := length.toNat_lt
    have hlt' := low.toNat_lt
    exact ⟨by omega, (List.getElem?_eq_some_iff.mp hlow).1⟩
  · obtain ⟨label, -, h⟩ := bind_eq_some_iff.mp h
    cases h

theorem spells_root (hroot : message[c]? = some 0) :
    Spells message c l p resume ↔ l = [] ∧ p = 0 ∧ resume = c + 1 := by
  constructor
  · rintro (_ | ⟨hnext, -⟩ | ⟨hnext, -⟩)
    · exact ⟨rfl, rfl, rfl⟩
    · cases (next?_root hroot).symm.trans hnext
    · cases (next?_root hroot).symm.trans hnext
  · rintro ⟨rfl, rfl, rfl⟩
    exact .root hroot

theorem spells_label {label : Bytes} (h : next? message c = some (c', some label)) :
    Spells message c l p resume ↔ ∃ rest, l = label :: rest ∧ Spells message c' rest p resume := by
  constructor
  · rintro (hroot | ⟨hnext, hrest⟩ | ⟨hnext, -⟩)
    · cases (next?_root hroot).symm.trans h
    · cases h.symm.trans hnext
      exact ⟨_, rfl, hrest⟩
    · cases h.symm.trans hnext
  · rintro ⟨rest, rfl, hrest⟩
    exact .label h hrest

theorem spells_pointer (h : next? message c = some (c', none)) :
    Spells message c l p resume ↔ ∃ p' resume', p = p' + 1 ∧
      resume = c + 2 ∧ Spells message c' l p' resume' := by
  constructor
  · rintro (hroot | ⟨hnext, -⟩ | ⟨hnext, hrest⟩)
    · cases (next?_root hroot).symm.trans h
    · cases h.symm.trans hnext
    · cases h.symm.trans hnext
      exact ⟨_, _, rfl, rfl, hrest⟩
  · rintro ⟨p', resume', rfl, rfl, hrest⟩
    exact .pointer h hrest

theorem Spells.resume_le (h : Spells message c l p resume) : resume ≤ message.length := by
  induction h with
  | root hroot => exact (List.getElem?_eq_some_iff.mp hroot).1
  | label _ _ ih => exact ih
  | pointer hnext => exact (of_next?_pointer hnext).2

theorem Spells.not_endless (h : Spells message c l p resume) : ¬ Endless message c := by
  have hs : ∀ {c c' : ℕ}, Moves message c c' → ¬ Endless message c' → ¬ Endless message c := by
    rintro c c' ⟨_, hnext⟩ hnot ⟨path, rfl, hp⟩
    obtain ⟨_, hf⟩ := hp 0
    cases hnext.symm.trans hf
    exact hnot ⟨fun n => path (n + 1), rfl, fun n => hp (n + 1)⟩
  induction h with
  | root hroot =>
    rintro ⟨path, rfl, hp⟩
    obtain ⟨_, hf⟩ := hp 0
    cases (next?_root hroot).symm.trans hf
  | label hnext _ ih => exact hs ⟨_, hnext⟩ ih
  | pointer hnext _ ih => exact hs ⟨_, hnext⟩ ih

theorem Endless.head (h : Moves message c c') (hend : Endless message c') : Endless message c := by
  obtain ⟨path, rfl, hp⟩ := hend
  refine ⟨fun n => Nat.casesOn n c path, rfl, fun n => ?_⟩
  cases n with
  | zero => exact h
  | succ n => exact hp n

theorem endless_of_circle (hm : Moves message c c')
    (hb : Relation.ReflTransGen (Moves message) c' c) : Endless message c := by
  have hnext : ∀ d : {d // Relation.ReflTransGen (Moves message) d c},
      ∃ d' : {d // Relation.ReflTransGen (Moves message) d c}, Moves message d d' := by
    rintro ⟨d, hd⟩
    rcases hd.cases_head with rfl | ⟨d', hm', hd'⟩
    · exact ⟨⟨c', hb⟩, hm⟩
    · exact ⟨⟨d', hd'⟩, hm'⟩
  choose next hnext using hnext
  refine ⟨fun n => (next^[n] ⟨c, .refl⟩).1, rfl, fun n => ?_⟩
  dsimp only
  rw [Function.iterate_succ_apply']
  exact hnext _

end Spelling

/-! ### The loop -/

namespace Walk

variable {message : Bytes} {m : ℕ} {w : Walk}

/-- What a turn of the loop can end with. -/
inductive Turned (message : Bytes) (maxPointers : ℕ) (w : Walk) :
    Except Error (Walk ⊕ Decompressed) → Prop
  | root (hroot : message[w.cursor]? = some 0) :
      Turned message maxPointers w (.ok (.inr ⟨w.labels, w.resume.getD (w.cursor + 1)⟩))
  | stuck {e : Error} (he : ∀ offset, e ≠ .pointerLoop offset)
      (hroot : message[w.cursor]? ≠ some 0) (hnext : next? message w.cursor = none) :
      Turned message maxPointers w (.error e)
  | long {c : ℕ} {label : Bytes} (hnext : next? message w.cursor = some (c, some label))
      (hlong : maxNameLen < w.wireLength + label.length + 1) :
      Turned message maxPointers w (.error .nameTooLong)
  | label {c : ℕ} {label : Bytes} (hnext : next? message w.cursor = some (c, some label))
      (hfits : w.wireLength + label.length + 1 ≤ maxNameLen) :
      Turned message maxPointers w (.ok (.inl { w with
        cursor := c
        labels := w.labels ++ [label]
        wireLength := w.wireLength + label.length + 1 }))
  | limit {c : ℕ} (hnext : next? message w.cursor = some (c, none))
      (hlimit : maxPointers < saturatingAdd w.pointers 1) :
      Turned message maxPointers w (.error (.pointerLimit maxPointers))
  | loop {c : ℕ} (hnext : next? message w.cursor = some (c, none)) (hloop : c ∈ w.visited) :
      Turned message maxPointers w (.error (.pointerLoop c))
  | jump {c : ℕ} (hnext : next? message w.cursor = some (c, none))
      (hlimit : saturatingAdd w.pointers 1 ≤ maxPointers) (hnew : c ∉ w.visited) :
      Turned message maxPointers w (.ok (.inl { w with
        cursor := c
        resume := w.resume.or (some (w.cursor + 2))
        visited := w.visited ++ [c]
        pointers := saturatingAdd w.pointers 1 }))

/-- The first byte tells pointers, labels and reserved lengths apart. -/
theorem lengthByte (n : UInt8) : (n &&& 0xc0 = 0xc0 ↔ 192 ≤ n.toNat) ∧
    (n &&& 0xc0 = 0 ↔ n.toNat < 64) ∧ (192 ≤ n.toNat → (n &&& 0x3f).toNat = n.toNat - 192) := by
  obtain ⟨⟨n⟩⟩ := n
  revert n
  decide +kernel

theorem turned_jump {length : UInt8} (hl : message[w.cursor]? = some length)
    (hle : 192 ≤ length.toNat) :
    Turned message m w (w.jump message m length >>= fun w => pure (.inl w)) := by
  have hroot : message[w.cursor]? ≠ some 0 := by
    rw [hl]
    rintro ⟨⟩
    exact absurd hle (by decide)
  unfold jump
  cases hs : message[w.cursor + 1]? with
  | none => exact .stuck (by simp) hroot (by simp [next?, hl, hle, hs])
  | some s =>
    set pointer := (length.toNat - 192) * 256 + s.toNat with hp
    have hnext : next? message w.cursor = if pointer < w.cursor then some (pointer, none)
        else none := by
      simp [next?, hl, hle, hs, pointer]
    have hc := (List.getElem?_eq_some_iff.mp hl).1
    simp only [okOr, ok_bind, rejectIf_bind, Wire.be16, (lengthByte length).2.2 hle, ← hp]
    split_ifs with hb hsl hf hlimit hloop
    · exact .stuck (by simp) hroot (hnext.trans (if_neg (by omega)))
    · exact .stuck (by simp) hroot (hnext.trans (if_neg (by omega)))
    · exact .stuck (by simp) hroot (hnext.trans (if_neg (by omega)))
    · exact .limit (hnext.trans (if_pos (by omega))) hlimit
    · exact .loop (hnext.trans (if_pos (by omega))) hloop
    · exact .jump (hnext.trans (if_pos (by omega))) (not_lt.mp hlimit) hloop

theorem turned_label {length : UInt8} (hl : message[w.cursor]? = some length)
    (hlt : length.toNat < 64) (hne : length ≠ 0) :
    Turned message m w (w.label message length >>= fun w => pure (.inl w)) := by
  have hp : 0 < length.toNat := Nat.pos_of_ne_zero fun h => hne (UInt8.toNat_inj.mp h)
  have hnext : next? message w.cursor = (Wire.range? message (w.cursor + 1)
      (w.cursor + 1 + length.toNat)).map fun label =>
        (w.cursor + 1 + length.toNat, some label) := by
    simp [next?, hl, hp, hlt, show ¬ 192 ≤ length.toNat by omega, map_eq_bind]
  unfold label
  simp only [rejectIf_bind]
  rw [if_neg (by unfold maxLabelLen; omega)]
  cases hr : Wire.range? message (w.cursor + 1) (w.cursor + 1 + length.toNat) with
  | none =>
    exact .stuck (by simp) (by rw [hl]; exact fun h => hne (Option.some.inj h))
      (by rw [hnext, hr]; rfl)
  | some label =>
    rw [hr] at hnext
    have hlen : label.length = length.toNat := by
      obtain ⟨⟨-, hs⟩, rfl⟩ := Wire.range?_eq_some.mp hr
      rw [length_drop, length_take]
      omega
    simp only [okOr, ok_bind, ← hlen]
    have hwd : maxNameLen < wordLimit := by decide
    cases hw : (checkedAdd w.wireLength label.length).bind (checkedAdd · 1) with
    | none =>
      refine .long hnext (not_le.mp fun hfits => ?_)
      rw [checkedAdd_eq_some.mpr ⟨by omega, rfl⟩, bind_some,
        checkedAdd_eq_some.mpr ⟨by omega, rfl⟩] at hw
      cases hw
    | some wl =>
      simp only [bind_eq_some_iff, checkedAdd_eq_some] at hw
      obtain ⟨_, ⟨-, rfl⟩, -, rfl⟩ := hw
      simp only [ok_bind]
      split_ifs with hlong
      · exact .long hnext hlong
      · rw [← hlen] at hnext
        exact .label hnext (not_lt.mp hlong)

theorem turned (message : Bytes) (m : ℕ) (w : Walk) : Turned message m w (w.turn message m) := by
  unfold turn
  cases hl : message[w.cursor]? with
  | none => exact .stuck (by simp) (by simp [hl]) (by simp [next?, hl])
  | some length =>
    obtain ⟨hj, hs, -⟩ := lengthByte length
    simp only [okOr, ok_bind]
    split_ifs with h₁ h₂ h₃
    · exact turned_jump hl (hj.mp h₁)
    · exact .root (h₃ ▸ hl)
    · exact turned_label hl (hs.mp h₂) h₃
    · rw [hj] at h₁
      rw [hs] at h₂
      refine .stuck (by simp) ?_ (by simp [next?, hl, h₁, h₂])
      rw [hl]
      rintro ⟨⟩
      exact h₂ (by decide)

/-- Every target that was visited leads to the cursor. -/
structure Inv (message : Bytes) (maxPointers : ℕ) (w : Walk) : Prop where
  wireLength_le : w.wireLength ≤ maxNameLen
  pointers_le : w.pointers ≤ maxPointers
  pointers_eq : w.pointers = w.visited.length
  nodup : w.visited.Nodup
  lt : ∀ p ∈ w.visited, p < 16384
  moves : ∀ p ∈ w.visited, Relation.ReflTransGen (Moves message) p w.cursor

theorem Inv.next_pointers (h : Inv message m w) : saturatingAdd w.pointers 1 = w.pointers + 1 := by
  have hc : w.visited.toFinset.card ≤ (Finset.range 16384).card :=
    Finset.card_le_card fun p hp => Finset.mem_range.mpr (h.lt p (List.mem_toFinset.mp hp))
  rw [toFinset_card_of_nodup h.nodup, Finset.card_range, ← h.pointers_eq] at hc
  have hw : 16385 < wordLimit := by decide
  exact saturatingAdd_eq (by omega)

/-- What the loop ends with from a state of it. -/
structure Ends (message : Bytes) (maxPointers : ℕ) (w : Walk)
    (out : Except Error Decompressed) : Prop where
  ok_iff : ∀ name, out = .ok name ↔ ∃ rest pointers resume,
    Spells message w.cursor rest pointers resume ∧
      name = ⟨w.labels ++ rest, w.resume.getD resume⟩ ∧
      w.wireLength + (rest.map fun label => label.length + 1).sum ≤ maxNameLen ∧
      w.pointers + pointers ≤ maxPointers
  loop : ∀ offset, out = .error (.pointerLoop offset) → Endless message w.cursor

/-- The loop ends: a label takes some of the length that is left, a pointer one of the pointers. -/
theorem run_ends (h : Inv message m w) {turns : ℕ}
    (htn : maxNameLen - w.wireLength + (m - w.pointers) < turns) :
    ∃ out, run message m turns w = some out ∧ Ends message m w out := by
  induction turns generalizing w with
  | zero => omega
  | succ turns ih =>
    have hl := h.wireLength_le
    unfold run
    have ht := turned message m w
    generalize w.turn message m = out at ht
    cases ht with
    | root hroot =>
      refine ⟨_, rfl, fun name => ?_, nofun⟩
      simp only [spells_root hroot, ok.injEq]
      constructor
      · rintro rfl
        exact ⟨[], 0, _, ⟨rfl, rfl, rfl⟩, by simp, by simpa using hl, h.pointers_le⟩
      · rintro ⟨_, _, _, ⟨rfl, rfl, rfl⟩, rfl, -⟩
        simp
    | stuck he hroot hnext =>
      refine ⟨_, rfl, fun name => ⟨nofun, ?_⟩, fun o hloop => absurd (by simpa using hloop) (he o)⟩
      rintro ⟨_, _, _, hroot' | ⟨hnext', -⟩ | ⟨hnext', -⟩, -⟩
      · exact absurd hroot' hroot
      · cases hnext.symm.trans hnext'
      · cases hnext.symm.trans hnext'
    | long hnext hlong =>
      refine ⟨_, rfl, fun name => ⟨nofun, ?_⟩, nofun⟩
      simp only [spells_label hnext]
      rintro ⟨_, _, _, ⟨rest, rfl, -⟩, -, hle, -⟩
      rw [map_cons, sum_cons] at hle
      omega
    | @label c label hnext hfits =>
      obtain ⟨out, hr, hen⟩ := ih (show Inv message m { w with
          cursor := c
          labels := w.labels ++ [label]
          wireLength := w.wireLength + label.length + 1 } from
        ⟨hfits, h.pointers_le, h.pointers_eq, h.nodup, h.lt,
          fun p hp => (h.moves p hp).tail ⟨_, hnext⟩⟩) (by dsimp only; omega)
      refine ⟨out, hr, fun name => (hen.ok_iff name).trans ?_,
        fun o hloop => (hen.loop o hloop).head ⟨_, hnext⟩⟩
      simp only [spells_label hnext]
      constructor
      · rintro ⟨rest, pointers, resume, hs, rfl, hle, hpn⟩
        exact ⟨_ :: rest, pointers, resume, ⟨rest, rfl, hs⟩, by simp,
          by rw [map_cons, sum_cons]; omega, hpn⟩
      · rintro ⟨_, pointers, resume, ⟨rest, rfl, hs⟩, rfl, hle, hpn⟩
        rw [map_cons, sum_cons] at hle
        exact ⟨rest, pointers, resume, hs, by simp, by omega, hpn⟩
    | limit hnext hlimit =>
      refine ⟨_, rfl, fun name => ⟨nofun, ?_⟩, nofun⟩
      simp only [spells_pointer hnext]
      rintro ⟨_, _, _, ⟨pointers, _, rfl, rfl, -⟩, -, -, hle⟩
      rw [h.next_pointers] at hlimit
      omega
    | loop hnext hloop =>
      have hend := endless_of_circle ⟨_, hnext⟩ (h.moves _ hloop)
      refine ⟨_, rfl, fun name => ⟨nofun, ?_⟩, fun _ _ => hend⟩
      rintro ⟨_, _, _, hs, -⟩
      exact absurd hend hs.not_endless
    | @jump c hnext hlimit hnew =>
      rw [h.next_pointers] at hlimit ⊢
      have hm : ∀ p ∈ w.visited ++ [c], Relation.ReflTransGen (Moves message) p c := by
        intro p hp
        rcases mem_append.mp hp with hp | hp
        · exact (h.moves p hp).tail ⟨_, hnext⟩
        · rw [mem_singleton.mp hp]
      have hlt : ∀ p ∈ w.visited ++ [c], p < 16384 := by
        intro p hp
        rcases mem_append.mp hp with hp | hp
        · exact h.lt p hp
        · exact mem_singleton.mp hp ▸ (of_next?_pointer hnext).1
      obtain ⟨out, hr, hen⟩ := ih (show Inv message m { w with
          cursor := c
          resume := w.resume.or (some (w.cursor + 2))
          visited := w.visited ++ [c]
          pointers := w.pointers + 1 } from
        ⟨hl, hlimit, by simp [h.pointers_eq], concat_eq_append ▸ h.nodup.concat hnew, hlt, hm⟩)
        (by dsimp only; omega)
      refine ⟨out, hr, fun name => (hen.ok_iff name).trans ?_,
        fun o hloop => (hen.loop o hloop).head ⟨_, hnext⟩⟩
      simp only [spells_pointer hnext]
      have hrs : ∀ resume, (w.resume.or (some (w.cursor + 2))).getD resume =
          w.resume.getD (w.cursor + 2) := by
        cases w.resume <;> simp
      constructor
      · rintro ⟨rest, pointers, resume, hs, rfl, hle, hpn⟩
        exact ⟨rest, _, _, ⟨pointers, resume, rfl, rfl, hs⟩, by rw [hrs], hle, by omega⟩
      · rintro ⟨rest, _, _, ⟨pointers, resume, rfl, rfl, hs⟩, rfl, hle, hpn⟩
        exact ⟨rest, pointers, resume, hs, by rw [hrs], hle, by omega⟩

end Walk

/-- Expanding a name ends within the turns its limits allow. It succeeds exactly if following labels
and strictly backward pointers reaches the root label within both limits, with those labels and the
offset after the root label or the first pointer, and it reports a loop only if following the name
never ends. -/
theorem decompress_exact (message : Bytes) (offset maxPointers : ℕ) :
    ∃ out, decompress message offset maxPointers = some out ∧
      (∀ labels resume, out = .ok ⟨labels, resume⟩ ↔ ∃ pointers,
        Spells message offset labels pointers resume ∧ nameLength labels ≤ maxNameLen ∧
          pointers ≤ maxPointers) ∧
      (∀ labels resume, out = .ok ⟨labels, resume⟩ → resume ≤ message.length) ∧
      ∀ target, out = .error (.pointerLoop target) → Endless message offset := by
  have hinv : Walk.Inv message maxPointers { cursor := offset } :=
    ⟨show 1 ≤ maxNameLen by decide, Nat.zero_le _, rfl, nodup_nil, nofun, nofun⟩
  obtain ⟨out, hr, hen⟩ := Walk.run_ends hinv
    (show maxNameLen - 1 + (maxPointers - 0) < maxNameLen + maxPointers + 1 by omega)
  have ho : ∀ labels resume, out = .ok ⟨labels, resume⟩ ↔ ∃ pointers,
      Spells message offset labels pointers resume ∧ nameLength labels ≤ maxNameLen ∧
        pointers ≤ maxPointers := by
    intro labels resume
    rw [hen.ok_iff]
    constructor
    · rintro ⟨rest, pointers, resume', hs, heq, hle, hp⟩
      cases heq
      exact ⟨pointers, hs, hle, by simpa using hp⟩
    · rintro ⟨pointers, hs, hle, hp⟩
      exact ⟨labels, pointers, resume, hs, rfl, hle, by simpa using hp⟩
  refine ⟨out, hr, ho, fun labels resume hout => ?_, hen.loop⟩
  obtain ⟨_, hs, -⟩ := (ho labels resume).mp hout
  exact hs.resume_le

end PacketCraftr.Dns
