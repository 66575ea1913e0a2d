import Mathlib.Data.Set.Insert
import Mathlib.Data.List.Nodup

/-!
# Generations of keys

A table that takes keys in and out again tells a history of events: a key is opened when it is taken
in, and closed, with a fate, when it is taken out. A history is consistent when a key is opened only
while it is out and closed only while it is in. In a consistent history that ends with an empty
table, each generation of a key meets exactly one fate.
-/

open List

namespace Lifecycle

variable {K F : Type*}

/-- A key is taken into a table, or out of it with a fate. -/
inductive Event (K F : Type*)
  | opened (key : K)
  | closed (key : K) (fate : F)
  deriving DecidableEq, Repr

def Event.key : Event K F → K
  | .opened key => key
  | .closed key _ => key

/-- A history that leads from the keys of one table to those of another. -/
inductive Consistent : Set K → List (Event K F) → Set K → Prop
  | nil (live : Set K) : Consistent live [] live
  | opened {live live' : Set K} {key : K} {events : List (Event K F)} (h : key ∉ live)
    (rest : Consistent (insert key live) events live') :
    Consistent live (.opened key :: events) live'
  | closed {live live' : Set K} {key : K} {fate : F} {events : List (Event K F)} (h : key ∈ live)
    (rest : Consistent (live \ {key}) events live') :
    Consistent live (.closed key fate :: events) live'

theorem Consistent.append {a b c : Set K} {events events' : List (Event K F)}
    (h : Consistent a events b) (h' : Consistent b events' c) :
    Consistent a (events ++ events') c := by
  induction h with
  | nil live => exact h'
  | opened h _ ih => exact .opened h (ih h')
  | closed h _ ih => exact .closed h (ih h')

/-- Distinct keys can be closed one after the other. -/
theorem Consistent.closeAll {live : Set K} {keys : List K} (hn : keys.Nodup)
    (hmem : ∀ key ∈ keys, key ∈ live) (fate : K → F) :
    Consistent live (keys.map fun key => .closed key (fate key)) (live \ {key | key ∈ keys}) := by
  induction keys generalizing live with
  | nil =>
    have hl : live \ {key | key ∈ ([] : List K)} = live := by
      ext k
      simp
    rw [hl]
    exact .nil live
  | cons key keys ih =>
    obtain ⟨hnt, hn⟩ := nodup_cons.mp hn
    refine .closed (hmem key mem_cons_self) ?_
    have hmem' : ∀ k ∈ keys, k ∈ live \ {key} := fun k hk =>
      ⟨hmem k (mem_cons_of_mem _ hk), fun heq => hnt (heq ▸ hk)⟩
    have hr := ih hn hmem'
    have hs : (live \ {key}) \ {k | k ∈ keys} = live \ {k | k ∈ key :: keys} := by
      ext k
      simp only [Set.mem_sdiff, Set.mem_singleton_iff, Set.mem_ofPred_eq, mem_cons]
      tauto
    rwa [hs] at hr

/-- The events of one key: each generation is opened, and then closed once. -/
inductive Paired : List (Event K F) → Prop
  | nil : Paired []
  | generation {key : K} {fate : F} {events : List (Event K F)} (h : Paired events) :
    Paired (.opened key :: .closed key fate :: events)

variable [DecidableEq K]

def eventsOf (key : K) (events : List (Event K F)) : List (Event K F) :=
  events.filter fun event => event.key = key

private theorem eventsOf_cons (key : K) (e : Event K F) (events : List (Event K F)) :
    eventsOf key (e :: events) =
      if e.key = key then e :: eventsOf key events else eventsOf key events := by
  rw [eventsOf, filter_cons]
  simp only [decide_eq_true_eq]
  rfl

private theorem Consistent.eventsOf_cases {live live' : Set K} {events : List (Event K F)}
    (h : Consistent live events live') {key : K} (hend : key ∉ live') :
    (key ∉ live → Paired (eventsOf key events)) ∧
      (key ∈ live → ∃ fate rest, eventsOf key events = .closed key fate :: rest ∧ Paired rest) := by
  induction h with
  | nil live => exact ⟨fun _ => .nil, fun hl => absurd hl hend⟩
  | @opened live live' k events h _ ih =>
    obtain ⟨i, ihin⟩ := ih hend
    by_cases hk : k = key
    · subst hk
      refine ⟨fun _ => ?_, fun hl => absurd hl h⟩
      obtain ⟨fate, rest, heq, hr⟩ := ihin (Set.mem_insert k live)
      rw [eventsOf_cons, if_pos (by rfl), heq]
      exact .generation hr
    · have hmem : key ∈ insert k live ↔ key ∈ live := by
        exact or_iff_right fun heq => hk heq.symm
      rw [eventsOf_cons, if_neg (by exact hk)]
      exact ⟨fun hl => i (hmem.not.mpr hl), fun hl => ihin (hmem.mpr hl)⟩
  | @closed live live' k fate events h _ ih =>
    obtain ⟨i, ihin⟩ := ih hend
    by_cases hk : k = key
    · subst hk
      refine ⟨fun hl => absurd h hl, fun _ => ⟨fate, eventsOf k events, ?_, ?_⟩⟩
      · rw [eventsOf_cons, if_pos (by rfl)]
      · exact i fun hmem => hmem.2 rfl
    · have hmem : key ∈ live \ {k} ↔ key ∈ live := by
        rw [Set.mem_sdiff, Set.mem_singleton_iff]
        exact and_iff_left fun heq => hk heq.symm
      rw [eventsOf_cons, if_neg (by exact hk)]
      exact ⟨fun hl => i (hmem.not.mpr hl), fun hl => ihin (hmem.mpr hl)⟩

/-- From an empty table to an empty table, each generation of a key meets exactly one fate. -/
theorem Consistent.paired {events : List (Event K F)} (h : Consistent ∅ events ∅) (key : K) :
    Paired (eventsOf key events) :=
  (h.eventsOf_cases (Set.notMem_empty key)).1 (Set.notMem_empty key)

end Lifecycle
