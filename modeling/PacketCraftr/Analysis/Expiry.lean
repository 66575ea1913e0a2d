import PacketCraftr.Foundation.SortedMap
import PacketCraftr.Foundation.Word
import Mathlib.Data.Prod.Lex

/-!
# Limits and deadlines of the analysis

What the reassemblers share: the report of a limit they refuse, and the index of deadlines of
`analysis/reassembly/expiry.rs`. A capture clock reading and a duration are numbers of
nanoseconds.
-/

open List

namespace PacketCraftr

/-- The first instant beyond the range of the clock: its seconds are a signed 64-bit number. -/
def instantLimit : ℕ := 2 ^ 63 * 1000000000

/-- The instant `d` after `t`, when the clock can represent it. -/
def checkedAddInstant (t d : ℕ) : Option ℕ :=
  if t + d < instantLimit then some (t + d) else none

/-- What a rejected limit violates. -/
inductive Constraint
  | belowSerialHalfSpace
  | withinClockRange
  deriving DecidableEq, Repr

/-- A configured limit that the analysis refuses. -/
structure InvalidLimit where
  field : String
  value : ℕ
  reason : Constraint
  deriving DecidableEq, Repr

/-- An idle expiry the monotonic clock, reading `clock`, cannot add to the present, with the
value to report in milliseconds. -/
def expiryViolation (clock expiry : ℕ) : Option (ℕ × Constraint) :=
  if (checkedAddInstant clock expiry).isNone then
    some (min (expiry / 1000000) (wordLimit - 1), .withinClockRange)
  else none

/-! ### The index of deadlines -/

/-- Keys ordered by deadline, then key. -/
structure ExpiryIndex (K : Type) [LinearOrder K] where
  entries : SortedMap (ℕ ×ₗ K) Unit

namespace ExpiryIndex

variable {K : Type} [LinearOrder K]

def empty : ExpiryIndex K := ⟨.empty⟩

def insert (x : ExpiryIndex K) (deadline : Option ℕ) (key : K) : ExpiryIndex K :=
  match deadline with
  | some t => ⟨x.entries.insert (toLex (t, key)) ()⟩
  | none => x

def remove (x : ExpiryIndex K) (deadline : Option ℕ) (key : K) : ExpiryIndex K :=
  match deadline with
  | some t => ⟨x.entries.erase (toLex (t, key))⟩
  | none => x

/-- Whether an entry of the index has expired. -/
def expired (now : ℕ) (e : (ℕ ×ₗ K) × Unit) : Bool := decide ((ofLex e.1).1 ≤ now)

/-- Take the entries at or before `now` out of the index, popping the first one as long as it has
expired, with the keys in the order they are popped. -/
def takeExpired (x : ExpiryIndex K) (now : ℕ) : List K × ExpiryIndex K :=
  ((x.entries.entries.takeWhile (expired now)).map fun e => (ofLex e.1).2,
    ⟨x.entries.entries.dropWhile (expired now),
      x.entries.sorted.sublist (dropWhile_sublist _)⟩)

/-! ### What the index holds -/

/-- The index holds a key with a deadline. -/
def Holds (x : ExpiryIndex K) (t : ℕ) (key : K) : Prop := (toLex (t, key), ()) ∈ x.entries.entries

theorem not_holds_empty (t : ℕ) (key : K) : ¬ (empty : ExpiryIndex K).Holds t key := not_mem_nil

variable {x : ExpiryIndex K} {deadline : Option ℕ} {key : K} {t : ℕ}

theorem holds_insert {k : K} :
    (x.insert deadline key).Holds t k ↔ (deadline = some t ∧ key = k) ∨ x.Holds t k := by
  cases deadline with
  | none => simp [insert]
  | some u =>
    rw [Holds, insert, SortedMap.mem_insert]
    simp only [Prod.mk.injEq, EmbeddingLike.apply_eq_iff_eq, and_true, Option.some.injEq, Holds]
    constructor
    · rintro (⟨rfl, rfl⟩ | h)
      · exact .inl ⟨rfl, rfl⟩
      · exact .inr h.2
    · rintro (⟨rfl, rfl⟩ | h)
      · exact .inl ⟨rfl, rfl⟩
      · by_cases heq : t = u ∧ k = key
        · exact .inl heq
        · exact .inr ⟨fun hk => heq (Prod.mk.inj (toLex_inj.mp hk)), h⟩

theorem holds_remove {k : K} :
    (x.remove deadline key).Holds t k ↔ x.Holds t k ∧ ¬ (deadline = some t ∧ key = k) := by
  cases deadline with
  | none => simp [remove]
  | some u =>
    rw [Holds, remove, SortedMap.mem_erase]
    simp only [EmbeddingLike.apply_eq_iff_eq, Prod.mk.injEq, Option.some.injEq, Holds, ne_eq]
    rw [eq_comm (a := t), eq_comm (a := k), and_comm]

theorem holds_move {p : Option ℕ} {k : K} (h : ∀ u, x.Holds u key ↔ p = some u) :
    (if p ≠ deadline then (x.remove p key).insert deadline key else x).Holds t k ↔
      if k = key then deadline = some t else x.Holds t k := by
  by_cases hk : k = key
  · subst hk
    rw [if_pos rfl]
    split_ifs with hne
    · rw [holds_insert, holds_remove, h]
      tauto
    · rw [h, not_ne_iff.mp hne]
  · rw [if_neg hk]
    split_ifs with hne
    · rw [holds_insert, holds_remove]
      tauto
    · rfl

/-- In a list ordered by a property, the elements that have it come first. -/
private theorem takeWhile_dropWhile {α : Type*} {p : α → Bool} {l : List α}
    (h : l.Pairwise fun a b => p b = true → p a = true) :
    l.takeWhile p = l.filter p ∧ l.dropWhile p = l.filter fun a => !p a := by
  induction l with
  | nil => exact ⟨rfl, rfl⟩
  | cons a l ih =>
    obtain ⟨ha, hl⟩ := pairwise_cons.mp h
    by_cases hp : p a = true
    · obtain ⟨ihtake, i⟩ := ih hl
      simp [hp, ihtake, i]
    · have hn : ∀ b ∈ l, ¬ p b = true := fun b hb hpb => hp (ha b hb hpb)
      have hf : l.filter p = [] := filter_eq_nil_iff.mpr hn
      have hs : (l.filter fun b => !p b) = l :=
        filter_eq_self.mpr fun b hb => by simpa using hn b hb
      simp [hp, hf, hs]

private theorem expired_split (x : ExpiryIndex K) (now : ℕ) :
    x.entries.entries.takeWhile (expired now) = x.entries.entries.filter (expired now) ∧
      x.entries.entries.dropWhile (expired now) =
        x.entries.entries.filter fun e => !expired now e := by
  refine takeWhile_dropWhile (x.entries.sorted.imp fun {a b} hlt hb => ?_)
  rw [expired, decide_eq_true_eq] at hb ⊢
  rcases Prod.Lex.lt_iff.mp hlt with h | h
  · exact h.le.trans hb
  · exact h.1.le.trans hb

theorem mem_takeExpired {now : ℕ} : key ∈ (x.takeExpired now).1 ↔ ∃ t, x.Holds t key ∧ t ≤ now := by
  rw [takeExpired, (x.expired_split now).1]
  simp only [mem_map, mem_filter, expired, decide_eq_true_eq, Holds]
  constructor
  · rintro ⟨⟨e, ⟨⟩⟩, ⟨hmem, hle⟩, rfl⟩
    exact ⟨(ofLex e).1, hmem, hle⟩
  · rintro ⟨t, hmem, hle⟩
    exact ⟨_, ⟨hmem, hle⟩, rfl⟩

theorem holds_takeExpired {now : ℕ} :
    (x.takeExpired now).2.Holds t key ↔ x.Holds t key ∧ now < t := by
  change _ ∈ x.entries.entries.dropWhile (expired now) ↔ _
  rw [(x.expired_split now).2, mem_filter, expired, Bool.not_eq_true', decide_eq_false_iff_not,
    not_le]
  rfl

/-- When every key has one deadline, the expired keys are distinct. -/
theorem nodup_takeExpired (now : ℕ) (h : ∀ key t u, x.Holds t key → x.Holds u key → t = u) :
    (x.takeExpired now).1.Nodup := by
  have hn : (x.entries.entries.takeWhile (expired now)).Nodup :=
    (x.entries.sorted.imp fun {a b} hlt => (ne_of_apply_ne Prod.fst hlt.ne)).sublist
      (takeWhile_sublist _)
  refine List.Nodup.map_on ?_ hn
  rintro ⟨a, ⟨⟩⟩ ha ⟨b, ⟨⟩⟩ hb heq
  have ha' := (takeWhile_sublist _).subset ha
  have hb' := (takeWhile_sublist _).subset hb
  have ht := h (ofLex a).2 (ofLex a).1 (ofLex b).1 ha' (by
    rw [heq]
    exact hb')
  have hab : ofLex a = ofLex b := Prod.ext ht heq
  rw [ofLex_inj.mp hab]

end ExpiryIndex

end PacketCraftr
