import PacketCraftr.Hpack.Decoder
import PacketCraftr.Foundation.Eviction

/-!
# The dynamic table of the HPACK decoder

The recorded size and charge of the table are those of its entries, in every state that operations
lead to. Eviction leaves the longest beginning of the table that fits. The bound on the table that
the two sides have agreed on holds after every block: it holds already, or a pending minimum forces
an update before the first field.
-/

namespace PacketCraftr.Hpack

open Outcome

/-! ### Eviction -/

open Eviction

namespace Decoder

/-- What is recorded of the table is what it holds. -/
structure Exact (d : Decoder) : Prop where
  size_eq : d.tableBytes = weightOf Entry.size d.table
  charge_eq : d.accountedBytes = weightOf Entry.charge d.table

/-- The decoder with other entries in its table. -/
def withTable (d : Decoder) (entries : List Entry) : Decoder :=
  { d with
    table := entries
    tableBytes := weightOf Entry.size entries
    accountedBytes := weightOf Entry.charge entries }

variable {d : Decoder}

theorem Exact.withTable_self (h : d.Exact) : d.withTable d.table = d := by
  obtain ⟨hs, hc⟩ := h
  rw [withTable, ← hs, ← hc]

theorem withTable_withTable (d : Decoder) (l m : List Entry) :
    (d.withTable l).withTable m = d.withTable m := rfl

theorem exact_withTable (d : Decoder) (l : List Entry) : (d.withTable l).Exact := ⟨rfl, rfl⟩

/-- Eviction leaves the longest beginning of the table that fits. -/
theorem evictFor_eq (size fuel : ℕ) (h : d.Exact) (hf : d.table.length = fuel) :
    evictFor size fuel d = d.withTable (surviving Entry.size d.effectiveMax size d.table) := by
  induction fuel generalizing d with
  | zero =>
    have hn : d.table = [] := List.length_eq_zero_iff.mp hf
    have hs : surviving Entry.size d.effectiveMax size d.table = d.table := by
      rw [hn, surviving, fitting, ite_self]
    rw [evictFor, hs, h.withTable_self]
  | succ fuel ih =>
    obtain ⟨es, e, he⟩ : ∃ es e, d.table = es ++ [e] :=
      List.eq_nil_or_concat' d.table |>.resolve_left (by rintro hn; simp [hn] at hf)
    rw [evictFor]
    split_ifs with ho
    · -- The last entry goes, and what is recorded of the rest stays exact.
      have hr : ({ d with
          table := d.table.dropLast
          tableBytes := d.tableBytes - e.size
          accountedBytes := d.accountedBytes - e.charge } : Decoder) = d.withTable es := by
        simp [withTable, h.size_eq, h.charge_eq, he, weightOf]
      have hl : d.table.getLast? = some e := by simp [he]
      have hlen : es.length = fuel := by simpa [he] using hf
      simp only [hl, hr]
      rw [ih (d.exact_withTable es) hlen, withTable_withTable, he,
        surviving_concat (by rw [← he, ← h.size_eq]; omega)]
      rfl
    · rw [surviving_eq_self (by rw [← h.size_eq]; omega), h.withTable_self]

/-! ### The invariant of the table -/

/-- The table is recorded exactly, and it is within its maximum and the limit on its memory. -/
structure Inv (d : Decoder) : Prop extends Exact d where
  size_le : d.tableBytes ≤ d.effectiveMax
  charge_le : d.accountedBytes ≤ d.limits.maxTableBytes

theorem Inv.withBounds (h : d.Inv) (ceiling : ℕ) (pendingMin : Option ℕ) (poisoned : Bool) :
    Inv { d with ceiling, pendingMin, poisoned } :=
  ⟨⟨h.size_eq, h.charge_eq⟩, h.size_le, h.charge_le⟩

/-- What a part of a block leaves of the decoder: a maximum that is the old one or a permitted one,
and the bounds that the two sides have agreed on as they were. -/
structure Follows (d d' : Decoder) : Prop where
  inv : d'.Inv
  ceiling_eq : d'.ceiling = d.ceiling
  pendingMin_eq : d'.pendingMin = d.pendingMin
  limits_eq : d'.limits = d.limits
  maximum : d'.effectiveMax = d.effectiveMax ∨ d'.effectiveMax ≤ d.ceiling

theorem Follows.refl (h : d.Inv) : Follows d d := ⟨h, rfl, rfl, rfl, .inl rfl⟩

theorem Follows.trans {d' d'' : Decoder} (h : Follows d d') (h' : Follows d' d'') :
    Follows d d'' := by
  refine ⟨h'.inv, h'.ceiling_eq.trans h.ceiling_eq, h'.pendingMin_eq.trans h.pendingMin_eq,
    h'.limits_eq.trans h.limits_eq, ?_⟩
  rcases h'.maximum with hs | hb
  · rw [hs]
    exact h.maximum
  · exact .inr (h.ceiling_eq ▸ hb)

theorem Inv.withTable {l : List Entry} (hs : weightOf Entry.size l ≤ d.effectiveMax)
    (hc : weightOf Entry.charge l ≤ d.limits.maxTableBytes) : (d.withTable l).Inv :=
  ⟨d.exact_withTable l, hs, hc⟩

/-- A new maximum, with the entries that still fit. -/
def resize (d : Decoder) (maximum : ℕ) : Decoder :=
  { d with effectiveMax := maximum }.withTable (surviving Entry.size maximum 0 d.table)

theorem evict_resize (h : d.Inv) (maximum : ℕ) :
    evict { d with effectiveMax := maximum } = d.resize maximum :=
  evictFor_eq 0 _ (d := { d with effectiveMax := maximum }) ⟨h.size_eq, h.charge_eq⟩ rfl

theorem Inv.resize (h : d.Inv) (m : ℕ) : (d.resize m).Inv := by
  refine Inv.withTable (d := { d with effectiveMax := m }) ?_ ?_
  · exact (weightOf_surviving_le _ _ _ _).trans (Nat.sub_le _ _)
  · exact (weightOf_surviving_mono _ _ _ _).trans (h.charge_eq ▸ h.charge_le)

/-- A size update that is accepted sets a permitted maximum; one that is refused changes nothing. -/
theorem sizeUpdate_spec (h : d.Inv) (rest : Bytes) (r : Bool) :
    (∃ e, d.sizeUpdate rest r = (.error e, d)) ∨
      ∃ m rest', integer rest 5 = .ok (m, rest') ∧ m ≤ d.ceiling ∧
        ¬ (r ∧ d.pendingMin.any (m > ·)) ∧
        d.sizeUpdate rest r = (.ok rest', d.resize m) := by
  unfold sizeUpdate
  cases hi : integer rest 5 with
  | error e => exact .inl ⟨e, rfl⟩
  | ok rs =>
    obtain ⟨m, rest'⟩ := rs
    dsimp only
    split_ifs with hcl hm hc
    · exact .inl ⟨_, rfl⟩
    · exact .inl ⟨_, rfl⟩
    · rw [evict_resize h] at hc
      exact absurd (h.resize m).charge_le (Nat.not_le.mpr hc)
    · rw [evict_resize h]
      exact .inr ⟨m, rest', rfl, Nat.not_lt.mp hcl, hm, rfl⟩

/-- The entry of a field that is inserted. -/
def entryOf (field : Field) (lineage : List ℕ) (origin : ℕ) : Entry :=
  ⟨field.name, field.value, lineage, origin⟩

/-- An insertion evicts what has to go. An entry that fits is then put in front, unless the table
would be charged more than it may be. -/
theorem insert_eq (h : d.Inv) (field : Field) (l : List ℕ) (origin : ℕ) : d.insert field l origin =
      let entry := entryOf field l origin
      let kept := surviving Entry.size d.effectiveMax entry.size d.table
      if entry.size > d.effectiveMax then (.ok (), d.withTable kept)
      else if weightOf Entry.charge kept + entry.charge > d.limits.maxTableBytes then
        (.error (.limit .tableBytes), d.withTable kept)
      else (.ok (), d.withTable (entry :: kept)) := by
  have hi : d.insert field l origin = let entry := entryOf field l origin
      let d := evictFor entry.size d.table.length d
      if entry.size > d.effectiveMax then (.ok (), d)
      else if d.accountedBytes + entry.charge > d.limits.maxTableBytes then
        (.error (.limit .tableBytes), d)
      else (.ok (), { d with
        table := entry :: d.table
        tableBytes := d.tableBytes + entry.size
        accountedBytes := d.accountedBytes + entry.charge }) := rfl
  rw [hi]
  dsimp only
  rw [evictFor_eq _ _ h.toExact rfl]
  simp only [withTable, weightOf_cons, Nat.add_comm]

theorem insert_follows (h : d.Inv) (field : Field) (l : List ℕ) (origin : ℕ) :
    Follows d (d.insert field l origin).2 ∧
      (d.insert field l origin).2.effectiveMax = d.effectiveMax := by
  rw [insert_eq h]
  set entry := entryOf field l origin
  have hs := weightOf_surviving_le Entry.size d.effectiveMax entry.size d.table
  have hc : weightOf Entry.charge (surviving Entry.size d.effectiveMax entry.size d.table) ≤
      d.limits.maxTableBytes :=
    (weightOf_surviving_mono _ _ _ _).trans (h.charge_eq ▸ h.charge_le)
  have hk := Inv.withTable (hs.trans (Nat.sub_le _ _)) hc
  dsimp only
  split_ifs with hl ho
  · exact ⟨⟨hk, rfl, rfl, rfl, .inl rfl⟩, rfl⟩
  · exact ⟨⟨hk, rfl, rfl, rfl, .inl rfl⟩, rfl⟩
  · refine ⟨⟨Inv.withTable ?_ ?_, rfl, rfl, rfl, .inl rfl⟩, rfl⟩
    · rw [weightOf_cons]
      omega
    · rw [weightOf_cons]
      omega

/-! ### Blocks -/

/-- What holds between the representations of a block that `d` decodes. -/
structure Progress.Sound (d : Decoder) (mustShrink : Bool) (p : Progress) : Prop where
  follows : Follows d p.decoder
  updated_le : p.updated → p.decoder.effectiveMax ≤ d.ceiling
  kept : p.updated = false → p.decoder.effectiveMax = d.effectiveMax
  shrunk : p.updating = false → mustShrink → p.updated

section Block

variable {E : Type} {ch : ℕ → Option E} {origin bl : ℕ} {ms : Bool}
variable {d : Decoder} {p : Progress}

theorem updateStep_sound (h : p.Sound d ms) :
    Outcome (fun e : DecodeError E × Decoder => Follows d e.2) (updateStep ms p)
      (Progress.Sound d ms) := by
  unfold updateStep
  split_ifs with hu
  · exact .of_error h.follows
  · rcases sizeUpdate_spec h.follows.inv p.cursor.rest (ms && !p.updated) with
      ⟨e, he⟩ | ⟨m, rest, -, hle, -, ho⟩
    · rw [he]
      exact .of_error h.follows
    · rw [ho]
      have hb : m ≤ d.ceiling := h.follows.ceiling_eq ▸ hle
      have hr : Follows d (p.decoder.resize m) :=
        h.follows.trans ⟨h.follows.inv.resize m, rfl, rfl, rfl, .inr hle⟩
      exact .of_ok ⟨hr, fun _ => hb, (fun hnot => nomatch hnot), fun hnot => absurd hnot hu⟩

theorem insertField_follows (h : d.Inv) (field : Field) (l : Option (List ℕ)) :
    Outcome (fun e : DecodeError E × Decoder => Follows d e.2) (insertField origin d field l)
      (fun d' => Follows d d' ∧ d'.effectiveMax = d.effectiveMax) := by
  cases l with
  | none => exact .of_ok ⟨.refl h, rfl⟩
  | some l =>
    have hi := insert_follows h field l origin
    rcases heq : d.insert field l origin with ⟨e | _, d'⟩ <;> rw [heq] at hi
    · simp only [insertField, heq, changed]
      exact .of_error hi.1
    · simp only [insertField, heq, changed]
      exact .of_ok hi

theorem fieldStep_sound (h : p.Sound d ms) (first : UInt8) :
    Outcome (fun e => Follows d e.2) (fieldStep ch origin bl ms p first) (Progress.Sound d ms) := by
  unfold fieldStep
  split_ifs with hms hc
  · exact .of_error h.follows
  · exact .of_error h.follows
  · split
    · exact .of_error h.follows
    · refine bind (mapError (.of_errors fun _ => h.follows)) ?_
      rintro ⟨field, lineage, charge, c⟩ -
      refine bind ((insertField_follows h.follows.inv field lineage).weaken
        (fun _ => h.follows.trans) fun _ => id) ?_
      rintro d' ⟨hf, hm⟩
      refine .of_ok ⟨h.follows.trans hf, fun hu => ?_, fun hu => ?_, fun _ hs => ?_⟩
      · exact hm ▸ h.updated_le hu
      · exact hm ▸ h.kept hu
      · -- A field that is read after no update needs none.
        cases hup : p.updating with
        | false => exact h.shrunk hup hs
        | true => simpa [hup, hs] using hms

theorem representation_sound (h : p.Sound d ms) (first : UInt8) :
    Outcome (fun e => Follows d e.2) (representation ch origin bl ms p first)
      (Progress.Sound d ms) := by
  refine bind (mapError (.of_errors fun _ => h.follows)) ?_
  intro calls _
  have hc : Progress.Sound d ms { p with cursor := ⟨p.cursor.rest, calls⟩ } :=
    ⟨h.follows, h.updated_le, h.kept, h.shrunk⟩
  dsimp only
  split_ifs
  · exact updateStep_sound hc
  · exact fieldStep_sound hc first

theorem decodeLoop_sound (h : p.Sound d ms) (fuel : ℕ) :
    Outcome (fun e => Follows d e.2) (decodeLoop ch origin bl ms fuel p) (Progress.Sound d ms) := by
  induction fuel generalizing p with
  | zero => exact .of_ok h
  | succ fuel ih =>
    rw [decodeLoop]
    split
    · exact .of_ok h
    · exact bind (representation_sound h _) fun p' hp' => ih hp'

/-- The maximum is within the permitted one, or a pending minimum will bring it there. -/
def Agreed (d : Decoder) : Prop :=
  d.effectiveMax ≤ d.ceiling ∨ ∃ minimum, d.pendingMin = some minimum ∧ minimum ≤ d.ceiling

theorem Follows.agreed {d' : Decoder} (h : Follows d d') (hd : d.Agreed) : d'.Agreed := by
  unfold Agreed at *
  rw [h.ceiling_eq, h.pendingMin_eq]
  rcases h.maximum with hs | hb
  · rwa [hs]
  · exact .inl hb

/-- A block after which no update is required leaves a permitted maximum. -/
theorem Progress.Sound.le_ceiling (h : p.Sound d (d.pendingMin.any (· < d.effectiveMax)))
    (hd : d.Agreed)
    (hdn : ¬ (p.updating ∧ d.pendingMin.any (· < d.effectiveMax) ∧ p.updated = false)) :
    p.decoder.effectiveMax ≤ d.ceiling := by
  cases hu : p.updated with
  | true => exact h.updated_le hu
  | false =>
    rw [h.kept hu]
    rcases hd with hle | ⟨minimum, hp, hm⟩
    · exact hle
    · -- No update was made, so none was required: the maximum is at most the pending minimum.
      by_contra ho
      have hs : d.pendingMin.any (· < d.effectiveMax) := by
        simp only [hp, Option.any_some, decide_eq_true_eq]
        omega
      cases hud : p.updating with
      | false => simp [h.shrunk hud hs] at hu
      | true => exact hdn ⟨hud, hs, hu⟩

theorem decodeBlock_spec (h : d.Inv) (hd : d.Agreed) (ch : ℕ → Option E) (block : Bytes)
    (origin : ℕ) :
    Outcome (fun e => Follows d e.2) (decodeBlock ch d block origin)
      (fun r => r.2.Inv ∧ r.2.limits = d.limits ∧ r.2.effectiveMax ≤ r.2.ceiling) := by
  unfold decodeBlock
  split_ifs
  · exact .of_error (.refl h)
  · have hs : Progress.Sound d (d.pendingMin.any (· < d.effectiveMax))
        ⟨d, ⟨block, 0⟩, [], 0, 0, true, false⟩ :=
      ⟨.refl h, (fun hu => nomatch hu), fun _ => rfl, (fun hu => nomatch hu)⟩
    refine bind (decodeLoop_sound hs _) fun p hp => ?_
    split_ifs with hm
    · exact .of_error hp.follows
    · have hc : p.decoder.effectiveMax ≤ p.decoder.ceiling :=
        hp.follows.ceiling_eq ▸ hp.le_ceiling hd hm
      exact .of_ok ⟨hp.follows.inv.withBounds _ _ _, hp.follows.limits_eq, hc⟩

end Block

/-! ### Runs -/

section Run

variable {E : Type}

/-- What holds of a decoder with given limits, whatever was done with it. -/
structure Valid (limits : Limits) (d : Decoder) : Prop where
  inv : d.Inv
  agreed : d.Agreed
  limits_eq : d.limits = limits

theorem Valid.new {limits : Limits} {d : Decoder} (h : new limits = .ok d) : d.Valid limits := by
  unfold Decoder.new at h
  split_ifs at h
  cases h
  exact ⟨⟨⟨rfl, rfl⟩, Nat.zero_le _, Nat.zero_le _⟩, .inl le_rfl, rfl⟩

variable {limits : Limits} {d : Decoder}

section

variable (h : d.Valid limits)
include h

/-- A decoded block, a failed one and a refused one. -/
theorem Valid.decodeChecked (checks : ℕ → Option E) (block : Bytes) (origin : ℕ) :
    (d.decodeChecked checks block origin).2.Valid limits ∧
      match d.decodeChecked checks block origin with
      | (.ok _, d') => d'.effectiveMax ≤ d'.ceiling
      | (.error _, d') => d'.poisoned := by
  have hb := decodeBlock_spec h.inv h.agreed checks block origin
  unfold Decoder.decodeChecked
  split_ifs with hp
  · exact ⟨h, hp⟩
  · rcases hr : decodeBlock checks d block origin with ⟨e, d'⟩ | ⟨b, d'⟩ <;> rw [hr] at hb
    · have hf : Follows d d' := hb
      exact ⟨⟨hf.inv.withBounds _ _ true, hf.agreed h.agreed, hf.limits_eq.trans h.limits_eq⟩, rfl⟩
    · obtain ⟨hinv, hl, hle⟩ := hb
      exact ⟨⟨hinv, .inl hle, hl.trans h.limits_eq⟩, hle⟩

theorem Valid.permitTableSize (m : ℕ) : (d.permitTableSize m).Valid limits := by
  refine ⟨h.inv.withBounds _ _ _, ?_, h.limits_eq⟩
  rcases h.agreed with hle | ⟨minimum, hp, hm⟩
  · exact .inl (hle.trans (Nat.le_max_left _ _))
  · exact .inr ⟨minimum, hp, hm.trans (Nat.le_max_left _ _)⟩

theorem Valid.requireTableMinimum (m : ℕ) : (d.requireTableMinimum m).Valid limits := by
  refine ⟨h.inv.withBounds _ _ _, ?_, h.limits_eq⟩
  rcases h.agreed with hle | ⟨pending, hp, hle⟩
  · exact .inl hle
  · refine .inr ⟨min pending m, ?_, (Nat.min_le_left _ _).trans hle⟩
    simp [Decoder.requireTableMinimum, hp]

/-- A ceiling that is acknowledged may be below the maximum: then it is a pending minimum. -/
theorem Valid.acknowledgeTableSize (m : ℕ) : (d.acknowledgeTableSize m).2.Valid limits := by
  unfold Decoder.acknowledgeTableSize
  split_ifs
  · exact h
  · refine ⟨h.inv.withBounds _ _ _, .inr ⟨_, rfl, ?_⟩, h.limits_eq⟩
    cases d.pendingMin with
    | none => exact le_rfl
    | some pn => exact Nat.min_le_right _ _

theorem Valid.step (op : Op E) : (d.step op).Valid limits := by
  cases op with
  | decode checks block origin => exact (h.decodeChecked checks block origin).1
  | permit m => exact h.permitTableSize m
  | require mn => exact h.requireTableMinimum mn
  | acknowledge m => exact h.acknowledgeTableSize m

theorem Valid.run (ops : List (Op E)) : (d.run ops).Valid limits := by
  induction ops generalizing d with
  | nil => exact h
  | cons op ops ih => exact ih (h.step op)

end

theorem decodeChecked_of_poisoned (h : d.poisoned) (checks : ℕ → Option E) (block : Bytes)
    (origin : ℕ) :
    d.decodeChecked checks block origin =
      (.error (.wire (.compression "decoder is poisoned")), d) := by
  rw [decodeChecked, if_pos h]

theorem poisoned_step (h : d.poisoned) (op : Op E) : (d.step op).poisoned := by
  cases op with
  | decode checks block origin => rwa [step, decodeChecked_of_poisoned h]
  | permit m => exact h
  | require mn => exact h
  | acknowledge m => rwa [step, acknowledgeTableSize, if_pos h]

theorem poisoned_run (h : d.poisoned) (ops : List (Op E)) : (d.run ops).poisoned := by
  induction ops generalizing d with
  | nil => exact h
  | cons op ops ih => exact ih (poisoned_step h op)

/-- The table of a decoder, over any sequence of operations. It is recorded exactly and within its
maximum. A block that is decoded next leaves it within the memory limit and its maximum within the
ceiling, and after a block that fails every later block fails. -/
theorem table_of_run {limits : Limits} {start : Decoder} (hnew : new limits = .ok start)
    (ops : List (Op E)) (d : Decoder) (hd : d = start.run ops) :
    (d.tableBytes = (d.table.map Entry.size).sum ∧ d.tableBytes ≤ d.effectiveMax) ∧
      d.accountedBytes = (d.table.map Entry.charge).sum ∧
      ∀ (checks : ℕ → Option E) (block : Bytes) (origin : ℕ),
        match d.decodeChecked checks block origin with
        | (.ok _, d') =>
          d'.accountedBytes ≤ limits.maxTableBytes ∧ d'.effectiveMax ≤ d'.ceiling
        | (.error _, d') =>
          ∀ (later : List (Op E)) (checks : ℕ → Option E) (block : Bytes) (origin : ℕ),
            ∃ e, ((d'.run later).decodeChecked checks block origin).1 = .error e := by
  have hv : d.Valid limits := hd ▸ (Valid.new hnew).run ops
  refine ⟨⟨hv.inv.size_eq, hv.inv.size_le⟩, hv.inv.charge_eq, ?_⟩
  intro checks block origin
  obtain ⟨ha, hr⟩ := hv.decodeChecked checks block origin
  rcases hdc : d.decodeChecked checks block origin with ⟨e | b, d'⟩ <;> rw [hdc] at ha hr
  · intro later checks' block' origin'
    exact ⟨_, by rw [decodeChecked_of_poisoned (poisoned_run hr later)]⟩
  · exact ⟨ha.limits_eq ▸ ha.inv.charge_le, hr⟩

end Run

/-- A field is indexed and a ceiling of forty bytes is acknowledged. The next block makes the update
that it requires, and names the field. -/
theorem table_of_run_acknowledged :
    let ops : List (Op Empty) :=
      [.decode (fun _ => none) [0x40, 1, 0x61, 1, 0x62] 1, .acknowledge 40]
    ∃ start d' : Decoder, new ⟨16, 64, 2, 256⟩ = .ok start ∧
      (start.run ops).table = [⟨[0x61], [0x62], [], 1⟩] ∧ (start.run ops).tableBytes = 34 ∧
      (start.run ops).decodeChecked (E := Empty) (fun _ => none) [0x3f, 9, 0xbe] 2 =
        (.ok ⟨[⟨[0x61], [0x62], false, [1, 2]⟩], 34⟩, d') ∧
      d'.accountedBytes ≤ 256 ∧ d'.effectiveMax ≤ d'.ceiling := by
  intro ops
  have hnew : new ⟨16, 64, 2, 256⟩ = .ok ⟨[], 0, 0, 4096, 4096, none, ⟨16, 64, 2, 256⟩, false⟩ := rfl
  have ht := table_of_run hnew ops _ rfl
  exact ⟨_, _, hnew, rfl, rfl, rfl, ht.2.2 (fun _ => none) [0x3f, 9, 0xbe] 2⟩

end Decoder

end PacketCraftr.Hpack
