import Mathlib.Algebra.Order.Ring.Nat
import Mathlib.Data.Prod.Lex
import Mathlib.Order.Interval.Finset.Nat

/-!
# Sorting streams with a bounded window, and merging them

A stream of numbered items with times is sorted through a window: the window is filled from the
stream up to a number of items, and its earliest item is taken out, of equal times the one of the
smallest number. The next item is after the last one unless its time is earlier, and its time is not
earlier when the inversions of the stream are shorter than the window.

Streams are merged by taking out, again and again, the least of the items that are next in their
streams. `Reorder.Merged` says that what was taken out is sorted and before what is next.
-/

open List

namespace Reorder

/-! ### The least element -/

section PopMin

variable {α β : Type*} [LinearOrder β] (key : α → β)

/-- The least element of a list, the first one of them, and the others. -/
def popMin : List α → Option (α × List α)
  | [] => none
  | a :: l =>
    match popMin l with
    | none => some (a, [])
    | some (b, rest) => if key b < key a then some (b, a :: rest) else some (a, b :: rest)

variable {key} {l rest : List α} {a : α}

theorem popMin_eq_none : popMin key l = none ↔ l = [] := by
  cases l with
  | nil => exact ⟨fun _ => rfl, fun _ => rfl⟩
  | cons a l =>
    refine ⟨fun h => ?_, nofun⟩
    rw [popMin] at h
    split at h
    · cases h
    · split_ifs at h

theorem perm_popMin (h : popMin key l = some (a, rest)) : l.Perm (a :: rest) := by
  induction l generalizing a rest with
  | nil => cases h
  | cons b l ih =>
    rw [popMin] at h
    split at h
    · next hn =>
      cases h
      rw [popMin_eq_none.mp hn]
    · next c rest' hs =>
      split_ifs at h
      · cases h
        exact ((ih hs).cons b).trans (.swap _ _ _)
      · cases h
        exact (ih hs).cons b

theorem popMin_le (h : popMin key l = some (a, rest)) : ∀ b ∈ rest, key a ≤ key b := by
  induction l generalizing a rest with
  | nil => cases h
  | cons b l ih =>
    rw [popMin] at h
    split at h
    · cases h
      exact nofun
    · next c rest' hs =>
      have hc := ih hs
      split_ifs at h with hlt
      · cases h
        exact forall_mem_cons.mpr ⟨hlt.le, hc⟩
      · cases h
        exact forall_mem_cons.mpr ⟨not_lt.mp hlt, fun d hd => (not_lt.mp hlt).trans (hc d hd)⟩

end PopMin

/-! ### Windows -/

section Window

variable {α T : Type*} [LinearOrder T] (time : α → T) (number : α → ℕ)

/-- Items are taken out by time, and by number when their times are equal. -/
def key (a : α) : T ×ₗ ℕ := toLex (time a, number a)

/-- Items that come before an earlier one come less than `window` before it. -/
def Repairable (window : ℕ) (l : List α) : Prop :=
  ∀ a ∈ l, ∀ b ∈ l, number a < number b → time b < time a → number b < number a + window

/-- The state of a stream of which the items `seen` were read, in the order of their numbers. The
items `taken` were taken out, one after the other, and the items `held` are in the window. Unless
the stream has ended, the window was full when the last item was taken out. -/
structure Inv (window : ℕ) (seen taken held : List α) (ended : Bool) : Prop where
  numbers : seen.Pairwise (number · < number ·)
  perm : seen.Perm (taken ++ held)
  key_lt_held : ∀ a ∈ taken.getLast?, ∀ b ∈ held, key time number a < key time number b
  full : ∀ a ∈ taken.getLast?, ended = true ∨ ∃ blockers : List α, blockers.Nodup ∧
    (∀ b ∈ blockers, b ∈ seen) ∧ window ≤ blockers.length ∧ ∀ b ∈ blockers, time a ≤ time b

variable {time number} {window : ℕ} {seen taken held more rest : List α} {ended ended' : Bool}
  {a b : α}

theorem key_lt_iff : key time number a < key time number b ↔
    time a < time b ∨ time a = time b ∧ number a < number b := Prod.Lex.toLex_lt_toLex

theorem key_le_iff : key time number a ≤ key time number b ↔
    time a < time b ∨ time a = time b ∧ number a ≤ number b := Prod.Lex.toLex_le_toLex

theorem time_le_of_key_le (h : key time number a ≤ key time number b) : time a ≤ time b := by
  rcases key_le_iff.mp h with h | ⟨h, -⟩
  · exact h.le
  · exact h.le

theorem nodup_map_number (h : seen.Pairwise (number · < number ·)) : (seen.map number).Nodup :=
  (pairwise_map.mpr h).imp Nat.ne_of_lt

/-- Fewer than `window` numbers are less than `window` before a given one. -/
theorem length_lt_of_numbers {l : List ℕ} {n : ℕ} (hw : 0 < window) (hn : l.Nodup)
    (hb : ∀ m ∈ l, m < n ∧ n < m + window) : l.length < window := by
  have hs : l.toFinset ⊆ Finset.Ico (n + 1 - window) n := by
    intro m hm
    have := hb m (mem_toFinset.mp hm)
    rw [Finset.mem_Ico]
    omega
  have hc := Finset.card_le_card hs
  rw [toFinset_card_of_nodup hn, Nat.card_Ico] at hc
  omega

namespace Inv

theorem new (window : ℕ) (ended : Bool) : Inv time number window [] [] [] ended :=
  ⟨.nil, .refl _, nofun, nofun⟩

variable (h : Inv time number window seen taken held ended)
include h

theorem mem_seen_of_last (hb : b ∈ taken.getLast?) : b ∈ seen :=
  h.perm.mem_iff.mpr (mem_append_left _ (mem_of_mem_getLast? hb))

theorem finish : Inv time number window seen taken held true :=
  ⟨h.numbers, h.perm, h.key_lt_held, fun _ _ => .inl rfl⟩

theorem next (hn : (seen ++ more).Pairwise (number · < number ·))
    (hf : ended' = true ∨ window ≤ (held ++ more).length)
    (hpop : popMin (key time number) (held ++ more) = some (a, rest)) :
    Inv time number window (seen ++ more) (taken ++ [a]) rest ended' := by
  have hw := perm_popMin hpop
  have hp : (seen ++ more).Perm (taken ++ (held ++ more)) := by
    rw [← append_assoc]
    exact h.perm.append_right more
  have hnd : (seen ++ more).Nodup := (nodup_map_number hn).of_map _
  have hh : (held ++ more).Nodup := (nodup_append.mp (hp.nodup_iff.mp hnd)).2.1
  have hmem : ∀ b ∈ held ++ more, b ∈ seen ++ more := fun b hb =>
    hp.mem_iff.mpr (mem_append_right _ hb)
  have hle : ∀ b ∈ rest, key time number a ≤ key time number b := popMin_le hpop
  obtain ⟨hnt, -⟩ := nodup_cons.mp (hw.nodup_iff.mp hh)
  refine ⟨hn, ?_, ?_, ?_⟩
  · rw [append_assoc, singleton_append]
    exact hp.trans (hw.append_left taken)
  · intro b hb c hc
    obtain rfl : a = b := by simpa using hb
    refine lt_of_le_of_ne (hle c hc) fun heq => ?_
    -- Items of the same number are the same, and an item is in the window once.
    have hnb : number a = number c := congrArg (fun k => (ofLex k).2) heq
    have ha : a = c := inj_on_of_nodup_map (nodup_map_number hn)
      (hmem a (hw.mem_iff.mpr mem_cons_self))
      (hmem c (hw.mem_iff.mpr (mem_cons_of_mem _ hc))) hnb
    exact hnt (ha ▸ hc)
  · intro b hb
    obtain rfl : a = b := by simpa using hb
    refine hf.imp_right fun hl => ⟨held ++ more, hh, hmem, hl, fun c hc => ?_⟩
    rcases mem_cons.mp (hw.mem_iff.mp hc) with rfl | hc
    · exact le_rfl
    · exact time_le_of_key_le (hle c hc)

/-- The next item is after the last one, unless its time is earlier. -/
theorem key_lt (hn : (seen ++ more).Pairwise (number · < number ·)) (ha : a ∈ held ++ more)
    (hb : b ∈ taken.getLast?) (ht : time b ≤ time a) :
    key time number b < key time number a := by
  rcases mem_append.mp ha with ha | ha
  · exact h.key_lt_held b hb a ha
  · have hnb : number b < number a := (pairwise_append.mp hn).2.2 b (h.mem_seen_of_last hb) a ha
    rcases ht.lt_or_eq with hlt | heq
    · exact key_lt_iff.mpr (.inl hlt)
    · exact key_lt_iff.mpr (.inr ⟨heq, hnb⟩)

/-- When the inversions of the stream are shorter than the window, no item that is read after the
last one was taken out is earlier than it: the items that filled the window then would all be later
than it, and less than `window` before it. -/
theorem time_le (hw : 0 < window) (hn : (seen ++ more).Pairwise (number · < number ·))
    (hmr : ended = true → more = []) (hr : Repairable time number window (seen ++ more))
    (ha : a ∈ held ++ more) (hb : b ∈ taken.getLast?) : time b ≤ time a := by
  rcases mem_append.mp ha with ha | ha
  · exact time_le_of_key_le (h.key_lt_held b hb a ha).le
  · by_contra hlt
    rcases h.full b hb with he | ⟨bl, hnd, hs, hlen, hbl⟩
    · rw [hmr he] at ha
      cases ha
    · have hds : (bl.map number).Nodup :=
        List.Nodup.map_on (fun c hc d hd heq => inj_on_of_nodup_map
          (nodup_map_number h.numbers) (hs c hc) (hs d hd) heq) hnd
      have hbn : ∀ m ∈ bl.map number, m < number a ∧ number a < m + window := by
        intro m hm
        obtain ⟨c, hc, rfl⟩ := mem_map.mp hm
        have hl : number c < number a := (pairwise_append.mp hn).2.2 c (hs c hc) a ha
        exact ⟨hl, hr c (mem_append_left _ (hs c hc)) a
          (mem_append_right _ ha) hl ((not_le.mp hlt).trans_le (hbl c hc))⟩
      have := length_lt_of_numbers hw hds hbn
      rw [length_map] at this
      omega

end Inv

end Window

/-! ### Merging -/

section Merged

variable {α β : Type*} [LinearOrder β] (order : ℕ → α → β)

/-- The items `out`, each with the number of its stream, are sorted, and they are before those that
are next in the streams. -/
structure Merged (out : List (ℕ × α)) (next : List (Option α)) : Prop where
  sorted : out.Pairwise fun a b => order a.1 a.2 < order b.1 b.2
  before : ∀ a ∈ out, ∀ i b, next[i]? = some (some b) → order a.1 a.2 < order i b

variable {order} {out : List (ℕ × α)} {next : List (Option α)} {i : ℕ} {a : α}

theorem Merged.new (next : List (Option α)) : Merged order [] next := ⟨.nil, nofun⟩

/-- The least of the next items is taken out, and another one of its stream takes its place. -/
theorem Merged.step (h : Merged order out next) (ha : next[i]? = some (some a))
    (hl : ∀ j b, j ≠ i → next[j]? = some (some b) → order i a < order j b)
    {f : Option α} (hf : ∀ b ∈ f, order i a < order i b) :
    Merged order (out ++ [(i, a)]) (next.set i f) := by
  have haf : ∀ j b, (next.set i f)[j]? = some (some b) → order i a < order j b := by
    intro j b hb
    rw [getElem?_set] at hb
    split_ifs at hb with hi hlen
    · subst hi
      exact hf b (Option.some.inj hb)
    · exact hl j b (fun heq => hi heq.symm) hb
  refine ⟨?_, ?_⟩
  · rw [pairwise_append]
    refine ⟨h.sorted, pairwise_singleton _ _, fun b hb c hc => ?_⟩
    obtain rfl := mem_singleton.mp hc
    exact h.before b hb i a ha
  · intro b hb j c hc
    rcases mem_append.mp hb with hb | hb
    · exact (h.before b hb i a ha).trans (haf j c hc)
    · obtain rfl := mem_singleton.mp hb
      exact haf j c hc

end Merged

/-! ### Concatenation -/

section Concat

variable {α : Type*}

/-- The items of lists, each with the number of its list, one list after the other. -/
def concat (first : ℕ) (lists : List (List α)) : List (ℕ × α) :=
  (lists.zipIdx first).flatMap fun (l, i) => l.map (Prod.mk i)

variable {lists : List (List α)} {l : List α} {first i : ℕ}

theorem concat_cons (first : ℕ) (l : List α) (lists : List (List α)) :
    concat first (l :: lists) = l.map (Prod.mk first) ++ concat (first + 1) lists := rfl

theorem length_concat (first : ℕ) (lists : List (List α)) :
    (concat first lists).length = (lists.map List.length).sum := by
  induction lists generalizing first with
  | nil => rfl
  | cons l lists ih => rw [concat_cons, length_append, length_map, ih]; rfl

theorem concat_eq_nil (h : ∀ l ∈ lists, l = []) : concat first lists = [] := by
  induction lists generalizing first with
  | nil => rfl
  | cons l lists ih =>
    obtain ⟨rfl, hl⟩ := forall_mem_cons.mp h
    exact ih hl

theorem concat_set_perm (first : ℕ) (h : lists[i]? = some l) (a : α) :
    (concat first lists ++ [(first + i, a)]).Perm (concat first (lists.set i (l ++ [a]))) := by
  induction lists generalizing first i with
  | nil => simp at h
  | cons l' lists ih =>
    cases i with
    | zero =>
      obtain rfl : l' = l := by simpa using h
      rw [set_cons_zero, concat_cons, concat_cons, map_append, append_assoc,
        append_assoc, Nat.add_zero]
      exact perm_append_comm.append_left _
    | succ i =>
      rw [set_cons_succ, concat_cons, concat_cons, append_assoc,
        show first + (i + 1) = first + 1 + i by omega]
      exact (ih _ (by simpa using h)).append_left _

/-- An item that is added to the last list that has any. -/
theorem concat_set_eq (first : ℕ) (h : lists[i]? = some l) (a : α)
    (hl : ∀ j l', i < j → lists[j]? = some l' → l' = []) :
    concat first (lists.set i (l ++ [a])) = concat first lists ++ [(first + i, a)] := by
  induction lists generalizing first i with
  | nil => simp at h
  | cons l' lists ih =>
    cases i with
    | zero =>
      obtain rfl : l' = l := by simpa using h
      have he : concat (first + 1) lists = [] := by
        refine concat_eq_nil fun l'' hl'' => ?_
        obtain ⟨j, hj⟩ := mem_iff_getElem?.mp hl''
        exact hl (j + 1) l'' (by omega) (by simpa using hj)
      rw [set_cons_zero, concat_cons, concat_cons, he, map_append, append_nil,
        append_nil, Nat.add_zero]
      rfl
    | succ i =>
      rw [set_cons_succ, concat_cons, concat_cons, append_assoc,
        show first + (i + 1) = first + 1 + i by omega]
      refine congrArg _ (ih _ (by simpa using h) fun j l' hj hl' => ?_)
      exact hl (j + 1) l' (by omega) (by simpa using hl')

theorem concat_map {β : Type*} (f : α → β) (first : ℕ) (lists : List (List α)) :
    concat first (lists.map (List.map f)) = (concat first lists).map fun x => (x.1, f x.2) := by
  induction lists generalizing first with
  | nil => rfl
  | cons l lists ih =>
    rw [map_cons, concat_cons, concat_cons, map_append, map_map, map_map, ih]
    rfl

theorem exists_of_mem_concat {x : ℕ × α} (h : x ∈ concat first lists) : ∃ l ∈ lists, x.2 ∈ l := by
  induction lists generalizing first with
  | nil => cases h
  | cons l lists ih =>
    rcases mem_append.mp h with h | h
    · obtain ⟨a, ha, rfl⟩ := mem_map.mp h
      exact ⟨l, mem_cons_self, ha⟩
    · obtain ⟨l', hl', hx⟩ := ih h
      exact ⟨l', mem_cons_of_mem _ hl', hx⟩

theorem concat_perm {β : Type*} {f g : β → List α} {l : List β}
    (h : ∀ b ∈ l, (f b).Perm (g b)) (first : ℕ) :
    (concat first (l.map f)).Perm (concat first (l.map g)) := by
  induction l generalizing first with
  | nil => exact .refl _
  | cons b l ih =>
    obtain ⟨hb, hl⟩ := forall_mem_cons.mp h
    exact (hb.map _).append (ih hl _)

end Concat

end Reorder
