import PacketCraftr.Foundation.Intervals
import PacketCraftr.Tcp.Model

/-!
# Sparse payload pages

`tcp/pages.rs`: pending payload is kept in fixed-size pages, keyed by their block of the stream.
Extending an interval never copies its retained payload. A page counts the bytes of its block that
are live, and is dropped when there are none.

For a set `C` of stream offsets, `Pages.Covers pages C` says that every block with an offset in
`C` has a page and that the page of a block counts its offsets in `C`; `Pages.Exact pages C` adds
that there are no other pages. Inserting a range of uncovered bytes adds it to `C`, removing a
range of covered ones takes it out, and the other operations read the bytes that were inserted.
-/

open Finset Exec SortedMap
open List hiding Ico

namespace PacketCraftr.Tcp

def pageBytes : ℕ := 4096

def pageCharge : ℕ := pageBytes + 64

/-- One block of pending payload, with the number of its bytes that are live. -/
structure Page where
  bytes : Bytes
  live : ℕ
  size_eq : bytes.length = pageBytes

namespace Page

variable {ε : Type}

def allocate (granted : Bool) : Exec Error Page :=
  if granted then .ok ⟨List.replicate pageBytes 0, 0, length_replicate⟩
  else Exec.fail (.resource (.allocationFailed pageBytes))

def write (page : Page) (first : ℕ) (bytes : Bytes) : Exec ε Page :=
  if h : first + bytes.length ≤ page.bytes.length then
    .ok ⟨Exec.overwriteFrom page.bytes first bytes, page.live,
      (length_overwriteFrom h).trans page.size_eq⟩
  else Exec.abort .bounds

end Page

/-- The pages of a flow, keyed by their block. -/
abbrev PageStore := SortedMap ℕ Page

namespace Pages

variable {ε : Type}

def divCeil (a b : ℕ) : ℕ := (a + b - 1) / b

/-- The blocks that the range `[start, stop)` meets, in increasing order. -/
def pageKeys (start stop : ℕ) : List ℕ :=
  let first := start / pageBytes
  let last := divCeil stop pageBytes
  List.range' first ((if stop ≤ start then first else last) - first)

/-- The part `[first, last)` of the page of a block. -/
structure PageSlice where
  key : ℕ
  first : ℕ
  last : ℕ
  deriving DecidableEq, Repr

def PageSlice.len (s : PageSlice) : ℕ := s.last - s.first

/-- The parts of pages that the range `[start, stop)` consists of. -/
def slices (start stop : ℕ) : Exec ε (List PageSlice) :=
  (pageKeys start stop).mapM fun key => do
    let base ← Exec.mul key pageBytes
    let rest ← Exec.sub stop base
    pure ⟨key, start - base, min rest pageBytes⟩

def equalsSlice (pages : PageStore) (bytes : Bytes) : Bool × ℕ → PageSlice → Exec ε (Bool × ℕ)
  | (equal, copied), s => do
    let page ← Exec.unwrap (pages.find? s.key)
    let held ← Exec.slice page.bytes s.first s.last
    let given ← Exec.slice bytes copied (copied + s.len)
    pure (equal && held == given, copied + s.len)

/-- Whether the pages hold the given bytes from `offset` on. -/
def equals (pages : PageStore) (offset : ℕ) (bytes : Bytes) : Exec ε Bool := do
  let stop ← Exec.add offset bytes.length
  let visited ← slices offset stop
  let (equal, _) ← visited.foldlM (equalsSlice pages bytes) (true, 0)
  pure equal

def copyOutSlice (pages : PageStore) : Bytes × ℕ → PageSlice → Exec ε (Bytes × ℕ)
  | (output, copied), s => do
    let page ← Exec.unwrap (pages.find? s.key)
    let held ← Exec.slice page.bytes s.first s.last
    let output ← Exec.overwrite output copied held
    pure (output, copied + s.len)

/-- Copy the bytes held from `offset` on over the given ones. -/
def copyOut (pages : PageStore) (offset : ℕ) (output : Bytes) : Exec ε Bytes := do
  let stop ← Exec.add offset output.length
  let visited ← slices offset stop
  let (output, _) ← visited.foldlM (copyOutSlice pages) (output, 0)
  pure output

def insertSlice (bytes : Bytes) : PageStore × ℕ → PageSlice → Exec ε (PageStore × ℕ)
  | (pages, copied), s => do
    let page ← Exec.unwrap (pages.find? s.key)
    let given ← Exec.slice bytes copied (copied + s.len)
    let page ← page.write s.first given
    let live ← Exec.add page.live s.len
    Exec.assert (live ≤ pageBytes)
    pure (SortedMap.insert pages s.key { page with live }, copied + s.len)

/-- Store bytes from `offset` on. The caller supplies only previously uncovered bytes. -/
def insert (pages : PageStore) (offset : ℕ) (bytes : Bytes) : Exec ε PageStore := do
  let stop ← Exec.add offset bytes.length
  let visited ← slices offset stop
  let (pages, _) ← visited.foldlM (insertSlice bytes) (pages, 0)
  pure pages

def removeSlice (pages : PageStore) (s : PageSlice) : Exec ε PageStore := do
  let page ← Exec.unwrap (pages.find? s.key)
  let live ← Exec.unwrap (checkedSub page.live s.len)
  pure (if live = 0 then pages.erase s.key else SortedMap.insert pages s.key { page with live })

/-- Release the bytes of the range `[start, stop)`. -/
def remove (pages : PageStore) (start stop : ℕ) : Exec ε PageStore := do
  let visited ← slices start stop
  visited.foldlM removeSlice pages

/-- The number of pages that stay when the range `[start, stop)` is released. -/
def remainingCount (pages : PageStore) (intervals : SortedMap ℕ ℕ) (start stop : ℕ) :
    Exec ε ℕ := do
  let before := (intervals.lastBelow start).map Prod.snd
  let after := (intervals.atLeast stop).head?.map Prod.fst
  let removed ← (pageKeys start stop).foldlM (fun count key => do
    let base ← Exec.mul key pageBytes
    if pages.contains key && !before.any (fun last => decide (last > base)) then
      match after with
      | none => pure (count + 1)
      | some first => do
        let limit ← Exec.add base pageBytes
        pure (if first < limit then count else count + 1)
    else pure count) 0
  Exec.sub pages.size removed

/-! ### Blocks and slices -/

/-- The offsets of a block. -/
def block (k : ℕ) : Finset ℕ := Ico (k * pageBytes) ((k + 1) * pageBytes)

variable {k x start stop os : ℕ} {pg : PageStore} {C : Finset ℕ} {bytes : Bytes}
  {intervals : SortedMap ℕ ℕ}

theorem mem_block : x ∈ block k ↔ x / pageBytes = k := by
  simp only [block, mem_Ico, pageBytes]
  omega

theorem inter_block_eq_empty : C ∩ block k = ∅ ↔ k ∉ C.image (· / pageBytes) := by
  simp [eq_empty_iff_forall_notMem, mem_block]

theorem card_inter_block_le (C : Finset ℕ) (k : ℕ) : (C ∩ block k).card ≤ pageBytes := by
  refine (card_le_card inter_subset_right).trans ?_
  rw [block, Nat.card_Ico]
  simp only [pageBytes]
  omega

theorem mem_pageKeys :
    k ∈ pageKeys start stop ↔ start < stop ∧ start < (k + 1) * pageBytes ∧ k * pageBytes < stop := by
  simp only [pageKeys, mem_range'_1, divCeil, pageBytes]
  split_ifs <;> omega

section

variable (start stop : ℕ)

theorem image_Ico : (Ico start stop).image (· / pageBytes) = (pageKeys start stop).toFinset := by
  ext k
  rw [mem_image, mem_toFinset, mem_pageKeys]
  constructor
  · rintro ⟨x, hx, rfl⟩
    rw [mem_Ico] at hx
    simp only [pageBytes]
    omega
  · rintro ⟨hlt, h₁, h₂⟩
    refine ⟨max start (k * pageBytes), mem_Ico.mpr ⟨le_max_left _ _, max_lt hlt h₂⟩, ?_⟩
    simp only [pageBytes] at *
    omega

theorem nodup_pageKeys : (pageKeys start stop).Nodup := nodup_range'

/-- The first block boundary after `start`, or the end of the range. -/
def nextBlock : ℕ := min stop ((start / pageBytes + 1) * pageBytes)

/-- The part of `[start, stop)` in the block of `start`. -/
def firstSlice : PageSlice :=
  ⟨start / pageBytes, start % pageBytes, min (stop - start / pageBytes * pageBytes) pageBytes⟩

/-- The slices of a range, without the arithmetic checks. -/
def sliceList : List PageSlice :=
  (pageKeys start stop).map fun key =>
    ⟨key, start - key * pageBytes, min (stop - key * pageBytes) pageBytes⟩

end

theorem slices_eq (h : stop ≤ wordLimit) :
    (slices start stop : Exec ε _) = .ok (sliceList start stop) := by
  refine mapM_eq fun key hk => ?_
  obtain ⟨-, -, hlt⟩ := mem_pageKeys.mp hk
  rw [mul_eq (by omega), ok_bind, sub_eq hlt.le]
  rfl

theorem sliceList_of_le (h : stop ≤ start) : sliceList start stop = [] := by
  rw [sliceList, pageKeys, if_pos h, Nat.sub_self]
  rfl

private theorem pageKeys_cons (h : start < stop) :
    pageKeys start stop = start / pageBytes :: pageKeys (nextBlock start stop) stop := by
  by_cases hle : stop ≤ nextBlock start stop
  · have ho : divCeil stop pageBytes - start / pageBytes = 1 := by
      simp only [divCeil, nextBlock, pageBytes] at *
      omega
    rw [pageKeys, if_neg (not_le.mpr h), ho, pageKeys, if_pos hle, Nat.sub_self]
    rfl
  · have hn : nextBlock start stop / pageBytes = start / pageBytes + 1 := by
      simp only [nextBlock, pageBytes] at *
      omega
    have hm : divCeil stop pageBytes - start / pageBytes =
        divCeil stop pageBytes - (start / pageBytes + 1) + 1 := by
      simp only [divCeil, nextBlock, pageBytes] at *
      omega
    rw [pageKeys, if_neg (not_le.mpr h), hm, range'_succ, pageKeys, if_neg hle, hn]

theorem sliceList_cons (h : start < stop) :
    sliceList start stop = firstSlice start stop :: sliceList (nextBlock start stop) stop := by
  rw [sliceList, pageKeys_cons h, List.map_cons]
  congr 1
  · simp only [firstSlice, PageSlice.mk.injEq, true_and, and_true, pageBytes]
    omega
  · refine map_congr_left fun key hk => ?_
    have hmem := mem_pageKeys.mp hk
    simp only [PageSlice.mk.injEq, true_and, and_true, nextBlock, pageBytes] at *
    omega

theorem firstSlice_len (h : start < stop) :
    (firstSlice start stop).len = nextBlock start stop - start := by
  simp only [PageSlice.len, firstSlice, nextBlock, pageBytes]
  omega

theorem lt_nextBlock (h : start < stop) : start < nextBlock start stop := by
  simp only [nextBlock, pageBytes]
  omega

theorem nextBlock_le (start stop : ℕ) : nextBlock start stop ≤ stop := min_le_left _ _

theorem div_of_mem_firstSlice (h₁ : start ≤ x) (h₂ : x < nextBlock start stop) :
    x / pageBytes = start / pageBytes := by
  simp only [nextBlock, pageBytes] at *
  omega

/-- The induction along the slices of a range: an invariant of the state and of the offset up to
which the range has been visited, kept by each visit, holds at the end of the range. -/
theorem returns_foldlM_sliceList {σ : Type} {f : σ → PageSlice → Exec ε σ} (stop : ℕ)
    (I : σ → ℕ → Prop)
    (hs : ∀ s start, start < stop → I s start →
      (f s (firstSlice start stop)).Returns fun s' => I s' (nextBlock start stop))
    (start : ℕ) (hle : start ≤ stop) (s : σ) (h : I s start) :
    ((sliceList start stop).foldlM f s).Returns fun s' => I s' stop := by
  induction hn : stop - start using Nat.strong_induction_on generalizing start s with
  | _ n ih =>
    rcases hle.lt_or_eq with hlt | rfl
    · rw [sliceList_cons hlt, foldlM_cons]
      refine (hs s start hlt h).bind fun s' hs' => ?_
      have hnx := lt_nextBlock hlt
      exact ih (stop - nextBlock start stop) (by omega) _ (nextBlock_le _ _) s' hs' rfl
    · rw [sliceList_of_le le_rfl]
      exact ⟨s, rfl, h⟩

/-! ### Covered offsets -/

/-- The byte held for a stream offset. -/
def byteAt (pages : PageStore) (x : ℕ) : Option UInt8 :=
  (pages.find? (x / pageBytes)).bind fun page => page.bytes[x % pageBytes]?

/-- The pages hold the offsets of `C`: each of them has a page, and each page counts its own. -/
structure Covers (pages : PageStore) (C : Finset ℕ) : Prop where
  live_eq : ∀ k page, pages.find? k = some page → page.live = (C ∩ block k).card
  held : ∀ x ∈ C, ∃ page, pages.find? (x / pageBytes) = some page

/-- The pages hold the offsets of `C` and there is no page without one. -/
structure Exact (pages : PageStore) (C : Finset ℕ) : Prop extends Covers pages C where
  nonempty : ∀ k page, pages.find? k = some page → (C ∩ block k).Nonempty

theorem exact_empty : Exact .empty ∅ where
  live_eq k page h := by cases h
  held x hx := absurd hx (notMem_empty x)
  nonempty k page h := by cases h

theorem Exact.find?_iff (h : Exact pg C) :
    (∃ page, pg.find? k = some page) ↔ k ∈ C.image (· / pageBytes) := by
  rw [mem_image]
  constructor
  · rintro ⟨page, hp⟩
    obtain ⟨x, hx⟩ := h.nonempty k page hp
    exact ⟨x, (mem_inter.mp hx).1, mem_block.mp (mem_inter.mp hx).2⟩
  · rintro ⟨x, hx, rfl⟩
    exact h.held x hx

theorem Exact.size_eq (h : Exact pg C) : pg.size = (C.image (· / pageBytes)).card := by
  have hn : pg.keys.Nodup := List.Pairwise.map _ (fun _ _ hlt => ne_of_lt hlt) pg.sorted
  have hk : pg.keys.toFinset = C.image (· / pageBytes) := by
    ext k
    rw [mem_toFinset, ← h.find?_iff]
    simp only [find?_eq_some, SortedMap.keys, List.mem_map, Prod.exists,
      exists_and_right, exists_eq_right]
  rw [← hk, toFinset_card_of_nodup hn, SortedMap.keys, length_map, size]

section

variable {D : Finset ℕ} {k' : ℕ} (hD : ∀ x ∈ D, x / pageBytes = k) (hne : k' ≠ k)
include hD hne

/-- A set of offsets in one block does not change what other blocks count. -/
private theorem inter_block_of_ne : (C ∪ D) ∩ block k' = C ∩ block k' := by
  ext x
  simp only [mem_inter, mem_union, mem_block]
  constructor
  · rintro ⟨hx | hx, hk⟩
    · exact ⟨hx, hk⟩
    · exact absurd (hk.symm.trans (hD x hx)) hne
  · rintro ⟨hx, hk⟩
    exact ⟨Or.inl hx, hk⟩

private theorem sdiff_inter_block_of_ne : (C \ D) ∩ block k' = C ∩ block k' := by
  ext x
  simp only [mem_inter, mem_sdiff, mem_block]
  constructor
  · rintro ⟨⟨hx, -⟩, hk⟩
    exact ⟨hx, hk⟩
  · rintro ⟨hx, hk⟩
    exact ⟨⟨hx, fun hd => hne (hk.symm.trans (hD x hd))⟩, hk⟩

end

theorem byteAt_eq {page : Page} (h : pg.find? (x / pageBytes) = some page) :
    byteAt pg x = page.bytes[x % pageBytes]? := by
  rw [byteAt, h]
  rfl

theorem Covers.exists_byteAt (h : Covers pg C) (hx : x ∈ C) : ∃ b, byteAt pg x = some b := by
  obtain ⟨page, hp⟩ := h.held x hx
  have hlt : x % pageBytes < page.bytes.length := by
    rw [page.size_eq]
    exact Nat.mod_lt _ (by decide)
  exact ⟨_, (byteAt_eq hp).trans (getElem?_eq_getElem hlt)⟩

/-! ### Inserting bytes -/

private theorem insertSlice_spec {copied : ℕ} (hlt : start < stop) (hC : Covers pg C)
    (hds : Disjoint C (Ico start (nextBlock start stop)))
    (hh : ∃ page, pg.find? (start / pageBytes) = some page)
    (hl : copied + (nextBlock start stop - start) ≤ bytes.length) :
    (insertSlice bytes (pg, copied) (firstSlice start stop) : Exec ε _).Returns
      fun (pg', copied') => copied' = copied + (nextBlock start stop - start) ∧
        Covers pg' (C ∪ Ico start (nextBlock start stop)) ∧
        (∀ k, (∃ page, pg'.find? k = some page) ↔ ∃ page, pg.find? k = some page) ∧
        ∀ x, byteAt pg' x = if start ≤ x ∧ x < nextBlock start stop then
          bytes[copied + (x - start)]? else byteAt pg x := by
  obtain ⟨page, hp⟩ := hh
  have hd : ∀ x ∈ Ico start (nextBlock start stop), x / pageBytes = start / pageBytes :=
    fun x hx => div_of_mem_firstSlice (mem_Ico.mp hx).1 (mem_Ico.mp hx).2
  have hs := firstSlice_len hlt
  have hpos : (firstSlice start stop).first + (nextBlock start stop - start) ≤ pageBytes := by
    simp only [firstSlice, nextBlock, pageBytes]
    omega
  set given := (bytes.take (copied + (nextBlock start stop - start))).drop copied with hg
  have hgl : given.length = nextBlock start stop - start := by
    rw [hg, length_drop, length_take]
    omega
  have hr : (firstSlice start stop).first + given.length ≤ page.bytes.length := by
    rw [hgl, page.size_eq]
    exact hpos
  -- The new bytes are counted in addition to those the page already holds of its block.
  have hc : page.live + (nextBlock start stop - start) =
      ((C ∪ Ico start (nextBlock start stop)) ∩ block (start / pageBytes)).card := by
    have hsub : Ico start (nextBlock start stop) ⊆ block (start / pageBytes) :=
      fun x hx => mem_block.mpr (hd x hx)
    rw [hC.live_eq _ _ hp, union_inter_distrib_right, inter_eq_left.mpr hsub,
      card_union_of_disjoint (hds.mono_left inter_subset_left), Nat.card_Ico]
  have hb := card_inter_block_le (C ∪ Ico start (nextBlock start stop)) (start / pageBytes)
  rw [← hc] at hb
  have hf : pg.find? (firstSlice start stop).key = some page := hp
  rw [insertSlice, unwrap_eq hf, ok_bind, hs,
    slice_eq (Nat.le_add_right _ _) hl, ok_bind, Page.write, dif_pos hr,
    ok_bind, add_eq (by simp only [pageBytes, wordLimit] at *; omega), ok_bind,
    assert_eq hb, ok_bind]
  refine ⟨_, rfl, rfl, ⟨?_, ?_⟩, fun k => ?_, fun x => ?_⟩
  · intro k page' hk
    rw [find?_insert] at hk
    split_ifs at hk with hkey
    · cases hk
      rw [hkey]
      exact hc
    · rw [inter_block_of_ne hd hkey]
      exact hC.live_eq k page' hk
  · intro x hx
    rw [find?_insert]
    split_ifs with hkey
    · exact ⟨_, rfl⟩
    · rcases mem_union.mp hx with hx | hx
      · exact hC.held x hx
      · exact absurd (hd x hx) hkey
  · rw [find?_insert]
    split_ifs with hkey
    · subst hkey
      exact ⟨fun _ => ⟨page, hp⟩, fun _ => ⟨_, rfl⟩⟩
    · exact Iff.rfl
  · by_cases hkey : x / pageBytes = start / pageBytes
    · rw [byteAt, find?_insert, if_pos (show _ = (firstSlice start stop).key from hkey),
        Option.bind_some, getElem?_overwriteFrom hr, hgl,
        byteAt_eq (hkey ▸ hp)]
      have hx : (firstSlice start stop).first ≤ x % pageBytes ∧
          x % pageBytes < (firstSlice start stop).first + (nextBlock start stop - start) ↔
          start ≤ x ∧ x < nextBlock start stop := by
        simp only [firstSlice, nextBlock, pageBytes] at *
        omega
      simp only [hx]
      split_ifs with hi
      · rw [hg, getElem?_drop, getElem?_take_of_lt (by
          simp only [firstSlice, nextBlock, pageBytes] at *
          omega)]
        congr 1
        simp only [firstSlice, nextBlock, pageBytes] at *
        omega
      · rfl
    · have hkey' : x / pageBytes ≠ (firstSlice start stop).key := hkey
      rw [if_neg fun hx => hkey (hd x (mem_Ico.mpr hx)), byteAt, byteAt,
        find?_insert_of_ne _ _ hkey']

/-- Inserting uncovered bytes whose pages are there covers them, keeps the set of pages, and
stores exactly these bytes. -/
theorem insert_spec (hsp : os + bytes.length < wordLimit) (hC : Covers pg C)
    (hd : Disjoint C (Ico os (os + bytes.length)))
    (hh : ∀ x ∈ Ico os (os + bytes.length), ∃ page, pg.find? (x / pageBytes) = some page) :
    (insert pg os bytes : Exec ε _).Returns fun pg' =>
      Covers pg' (C ∪ Ico os (os + bytes.length)) ∧
      (∀ k, (∃ page, pg'.find? k = some page) ↔ ∃ page, pg.find? k = some page) ∧
      ∀ x, byteAt pg' x = if os ≤ x ∧ x < os + bytes.length then
        bytes[x - os]? else byteAt pg x := by
  rw [insert, add_eq hsp, ok_bind, slices_eq hsp.le, ok_bind]
  set stop := os + bytes.length with hst
  have hf := returns_foldlM_sliceList (ε := ε) (f := insertSlice bytes) stop
    (fun s start => os ≤ start ∧ start ≤ stop ∧ s.2 = start - os ∧ Covers s.1 (C ∪ Ico os start) ∧
      (∀ k, (∃ page, s.1.find? k = some page) ↔ ∃ page, pg.find? k = some page) ∧
      ∀ x, byteAt s.1 x = if os ≤ x ∧ x < start then bytes[x - os]? else byteAt pg x)
    ?_ os (by omega) (pg, 0) ?_
  · refine hf.bind fun s hs => ?_
    obtain ⟨-, -, -, hc, hk, hb⟩ := hs
    exact ⟨s.1, rfl, hc, hk, hb⟩
  · rintro ⟨pg₁, c⟩ start hlt ⟨hle, -, rfl, hc, hk, hb⟩
    have hnt := lt_nextBlock hlt
    have hn := nextBlock_le start stop
    have hd' : Disjoint (C ∪ Ico os start) (Ico start (nextBlock start stop)) := by
      refine disjoint_union_left.mpr ⟨hd.mono_right ?_, ?_⟩
      · exact Ico_subset_Ico hle hn
      · exact Ico_disjoint_Ico_consecutive _ _ _
    have hh' : ∃ page, pg₁.find? (start / pageBytes) = some page :=
      (hk _).mpr (hh start (mem_Ico.mpr ⟨hle, hlt⟩))
    refine (insertSlice_spec hlt hc hd' hh' (by omega)).mono ?_
    rintro ⟨pg₂, c₂⟩ ⟨hcp, hc₂, hk₂, hb₂⟩
    refine ⟨by omega, hn, ?_, ?_, fun k => (hk₂ k).trans (hk k), fun x => ?_⟩
    · change c₂ = _
      omega
    · rwa [union_assoc, Ico_union_Ico_eq_Ico hle hnt.le] at hc₂
    · rw [hb₂, hb]
      split_ifs with h₁ h₂ h₃ h₄
      · congr 1
        omega
      · omega
      · rfl
      · omega
      · omega
      · rfl
  · refine ⟨le_rfl, by omega, (Nat.sub_self _).symm, ?_, fun _ => Iff.rfl, fun x => ?_⟩
    · rw [Ico_self, union_empty]
      exact hC
    · rw [if_neg (by omega)]

/-! ### Removing bytes -/

private theorem removeSlice_spec (hlt : start < stop) (hC : Exact pg C)
    (hsub : Ico start (nextBlock start stop) ⊆ C) :
    (removeSlice pg (firstSlice start stop) : Exec ε _).Returns fun pg' =>
      Exact pg' (C \ Ico start (nextBlock start stop)) ∧
      ∀ x ∈ C \ Ico start (nextBlock start stop), byteAt pg' x = byteAt pg x := by
  have hn := lt_nextBlock hlt
  set D := Ico start (nextBlock start stop) with hD
  have hd : ∀ x ∈ D, x / pageBytes = start / pageBytes :=
    fun x hx => div_of_mem_firstSlice (mem_Ico.mp hx).1 (mem_Ico.mp hx).2
  have hmem : start ∈ D := mem_Ico.mpr ⟨le_rfl, hn⟩
  obtain ⟨page, hpa⟩ := hC.held start (hsub hmem)
  have hds : D ⊆ C ∩ block (start / pageBytes) :=
    fun x hx => mem_inter.mpr ⟨hsub hx, mem_block.mpr (hd x hx)⟩
  have hc : D.card = nextBlock start stop - start := by rw [hD, Nat.card_Ico]
  have hle : (firstSlice start stop).len ≤ page.live := by
    rw [firstSlice_len hlt, ← hc, hC.live_eq _ _ hpa]
    exact card_le_card hds
  have hl : page.live - (firstSlice start stop).len =
      ((C \ D) ∩ block (start / pageBytes)).card := by
    rw [inter_comm, ← inter_sdiff_assoc, inter_comm, card_sdiff_of_subset hds, hc,
      firstSlice_len hlt, hC.live_eq _ _ hpa]
  have hfd : pg.find? (firstSlice start stop).key = some page := hpa
  rw [removeSlice, unwrap_eq hfd, ok_bind,
    unwrap_eq (checkedSub_eq_some.mpr ⟨hle, rfl⟩), ok_bind, hl]
  -- Whether the page is deleted or only recounted, the pages of the other blocks stay.
  have hu : ∀ {pg' : PageStore}, (∀ k, k ≠ start / pageBytes → pg'.find? k = pg.find? k) →
      (∀ p, pg'.find? (start / pageBytes) = some p →
        p.live = ((C \ D) ∩ block (start / pageBytes)).card ∧
          ((C \ D) ∩ block (start / pageBytes)).Nonempty ∧ p.bytes = page.bytes) →
      (((C \ D) ∩ block (start / pageBytes)).Nonempty →
        ∃ p, pg'.find? (start / pageBytes) = some p) →
      Exact pg' (C \ D) ∧ ∀ x ∈ C \ D, byteAt pg' x = byteAt pg x := by
    intro pg' ho hs hh
    have hpg : ∀ k p, pg'.find? k = some p → p.live = ((C \ D) ∩ block k).card ∧
        ((C \ D) ∩ block k).Nonempty := by
      intro k p hp
      by_cases hk : k = start / pageBytes
      · subst hk
        exact ⟨(hs p hp).1, (hs p hp).2.1⟩
      · rw [ho k hk] at hp
        rw [sdiff_inter_block_of_ne hd hk]
        exact ⟨hC.live_eq k p hp, hC.nonempty k p hp⟩
    have hf : ∀ x ∈ C \ D, ∃ p q, pg'.find? (x / pageBytes) = some p ∧
        pg.find? (x / pageBytes) = some q ∧ p.bytes = q.bytes := by
      intro x hx
      by_cases hk : x / pageBytes = start / pageBytes
      · obtain ⟨p, hp⟩ := hh ⟨x, mem_inter.mpr ⟨hx, mem_block.mpr hk⟩⟩
        exact ⟨p, page, hk ▸ hp, hk ▸ hpa, (hs p hp).2.2⟩
      · obtain ⟨q, hq⟩ := hC.held x (mem_sdiff.mp hx).1
        exact ⟨q, q, (ho _ hk).trans hq, hq, rfl⟩
    refine ⟨⟨⟨fun k p hp => (hpg k p hp).1, fun x hx => ?_⟩, fun k p hp => (hpg k p hp).2⟩,
      fun x hx => ?_⟩
    · obtain ⟨p, -, hp, -⟩ := hf x hx
      exact ⟨p, hp⟩
    · obtain ⟨p, q, hp, hq, hb⟩ := hf x hx
      rw [byteAt_eq hp, byteAt_eq hq, hb]
  split_ifs with hz
  · refine ⟨_, rfl, hu (fun k hk => find?_erase_of_ne _ hk) (fun p hp => ?_)
      fun hm => absurd hz (card_ne_zero.mpr hm)⟩
    cases (find?_erase_self _ _).symm.trans hp
  · refine ⟨_, rfl, hu (fun k hk => find?_insert_of_ne _ _ hk) (fun p hp => ?_)
      fun _ => ⟨_, find?_insert_self _ _ _⟩⟩
    cases (find?_insert_self _ _ _).symm.trans hp
    exact ⟨rfl, card_ne_zero.mp hz, rfl⟩

/-- Removing covered bytes uncovers them, deletes the pages that become empty, and keeps the
other bytes. -/
theorem remove_spec (hst : stop ≤ wordLimit) (hle : start ≤ stop) (hC : Exact pg C)
    (hs : Ico start stop ⊆ C) :
    (remove pg start stop : Exec ε _).Returns fun pg' =>
      Exact pg' (C \ Ico start stop) ∧
      ∀ x ∈ C \ Ico start stop, byteAt pg' x = byteAt pg x := by
  rw [remove, slices_eq hst, ok_bind]
  refine (returns_foldlM_sliceList (ε := ε) (f := removeSlice) stop
    (fun s mid => start ≤ mid ∧ mid ≤ stop ∧ Exact s (C \ Ico start mid) ∧
      ∀ x ∈ C \ Ico start mid, byteAt s x = byteAt pg x) ?_ start hle pg ?_).mono
    fun pg' h => h.2.2
  · rintro pg₁ mid hlt ⟨hm, -, he, hb⟩
    have hn := lt_nextBlock hlt
    have hnx := nextBlock_le mid stop
    have hs' : Ico mid (nextBlock mid stop) ⊆ C \ Ico start mid := by
      intro x hx
      rw [mem_Ico] at hx
      rw [mem_sdiff, mem_Ico]
      exact ⟨hs (mem_Ico.mpr ⟨by omega, by omega⟩), by omega⟩
    have hsp : (C \ Ico start mid) \ Ico mid (nextBlock mid stop) =
        C \ Ico start (nextBlock mid stop) := by
      rw [sdiff_sdiff, sup_eq_union, Ico_union_Ico_eq_Ico hm hn.le]
    refine (removeSlice_spec hlt he hs').mono fun pg₂ h₂ => ?_
    rw [hsp] at h₂
    refine ⟨by omega, hnx, h₂.1, fun x hx => ?_⟩
    rw [h₂.2 x hx]
    refine hb x (sdiff_subset_sdiff Subset.rfl ?_ hx)
    exact Ico_subset_Ico_right hn.le
  · refine ⟨le_rfl, hle, ?_, fun x _ => rfl⟩
    rwa [Ico_self, sdiff_empty]

/-! ### Reading bytes -/

private theorem slice_page {page : Page} (hlt : start < stop)
    (hp : pg.find? (start / pageBytes) = some page) :
    (slice page.bytes (firstSlice start stop).first (firstSlice start stop).last :
      Exec ε _).Returns fun held => held.length = nextBlock start stop - start ∧
        ∀ i < nextBlock start stop - start, held[i]? = byteAt pg (start + i) := by
  have hs := page.size_eq
  have hf : (firstSlice start stop).first ≤ (firstSlice start stop).last := by
    simp only [firstSlice, pageBytes]
    omega
  have hl : (firstSlice start stop).last ≤ page.bytes.length := hs ▸ min_le_right _ _
  refine ⟨_, slice_eq hf hl, ?_, fun i hi => ?_⟩
  · rw [length_drop, length_take, min_eq_left hl]
    exact firstSlice_len hlt
  · have hi' : (firstSlice start stop).first + i < (firstSlice start stop).last := by
      have hlen := firstSlice_len hlt
      simp only [PageSlice.len] at hlen
      omega
    have hm : (start + i) % pageBytes = (firstSlice start stop).first + i := by
      simp only [firstSlice, pageBytes] at *
      omega
    have hd : (start + i) / pageBytes = start / pageBytes :=
      div_of_mem_firstSlice (Nat.le_add_right _ _) (show start + i < nextBlock start stop by omega)
    rw [getElem?_drop, getElem?_take_of_lt hi', byteAt_eq (hd ▸ hp), hm]

/-- The induction along the slices of a range that is read: an invariant of the state, the number
of the bytes that were read, is kept by each visit of a slice with the bytes it holds. -/
private theorem returns_foldlM_read {σ : Type} {f : σ × ℕ → PageSlice → Exec ε (σ × ℕ)}
    (hh : ∀ x ∈ Ico os stop, ∃ page, pg.find? (x / pageBytes) = some page)
    (I : σ → ℕ → Prop)
    (hst : ∀ s start page held, os ≤ start → start < stop → nextBlock start stop ≤ stop →
      pg.find? (firstSlice start stop).key = some page → (slice page.bytes (firstSlice start
      stop).first (firstSlice start stop).last : Exec ε _) = .ok held → held.length = nextBlock
      start stop - start → (∀ i < nextBlock start stop - start, held[i]? = byteAt pg (start + i))
      → I s (start - os) → (f (s, start - os) (firstSlice start stop)).Returns fun s' =>
      s'.2 = nextBlock start stop - os ∧ I s'.1 (nextBlock start stop - os))
    (hle : os ≤ stop) {s : σ} (h : I s 0) :
    ((sliceList os stop).foldlM f (s, 0)).Returns fun s' => I s'.1 (stop - os) := by
  refine (returns_foldlM_sliceList stop (fun s mid => os ≤ mid ∧ s.2 = mid - os ∧
    I s.1 (mid - os)) ?_ os hle (s, 0) ⟨le_rfl, (Nat.sub_self _).symm, ?_⟩).mono
    fun s' hs' => hs'.2.2
  · rintro ⟨s, c⟩ mid hlt ⟨hm, rfl, hs⟩
    obtain ⟨page, hp⟩ := hh mid (mem_Ico.mpr ⟨hm, hlt⟩)
    obtain ⟨held, hsl, hl, hb⟩ := slice_page (ε := ε) hlt hp
    exact (hst s mid page held hm hlt (nextBlock_le mid stop) hp hsl hl hb hs).mono
      fun s' hs' => ⟨hm.trans (lt_nextBlock hlt).le, hs'⟩
  · rwa [Nat.sub_self]

/-- Comparing with the held bytes compares offset by offset. -/
theorem equals_spec (hst : os + bytes.length < wordLimit)
    (hh : ∀ x ∈ Ico os (os + bytes.length), ∃ page, pg.find? (x / pageBytes) = some page) :
    (equals pg os bytes : Exec ε _).Returns fun e =>
      e = true ↔ ∀ i < bytes.length, byteAt pg (os + i) = bytes[i]? := by
  rw [equals, add_eq hst, ok_bind, slices_eq hst.le, ok_bind]
  refine (returns_foldlM_read (f := equalsSlice pg bytes) hh (fun e n =>
    e = true ↔ ∀ i < n, byteAt pg (os + i) = bytes[i]?) ?_ (Nat.le_add_right _ _)
    (by simp)).bind fun s hs => returns_pure (by rwa [Nat.add_sub_cancel_left] at hs)
  intro e mid page held hle hlt hn hf hsl hl hhl heq
  have hnt := lt_nextBlock hlt
  rw [equalsSlice, unwrap_eq hf, ok_bind, hsl, ok_bind, firstSlice_len hlt,
    slice_eq (Nat.le_add_right _ _) (by omega), ok_bind]
  refine ⟨_, rfl, by dsimp only; omega, ?_⟩
  have hsm : (held == (bytes.take (mid - os + (nextBlock mid (os + bytes.length) -
      mid))).drop (mid - os)) = true ↔ ∀ i < nextBlock mid (os + bytes.length) - mid,
        byteAt pg (mid + i) = bytes[mid - os + i]? := by
    rw [beq_iff_eq, List.ext_getElem?_iff]
    refine forall_congr' fun i => ?_
    by_cases hi : i < nextBlock mid (os + bytes.length) - mid
    · rw [hhl i hi, getElem?_drop, getElem?_take_of_lt (by omega)]
      exact ⟨fun h _ => h, fun h => h hi⟩
    · rw [getElem?_eq_none (by omega), getElem?_eq_none (by
        rw [length_drop, length_take]; omega)]
      exact ⟨fun _ h => absurd h hi, fun _ => rfl⟩
  rw [Bool.and_eq_true, heq, hsm]
  constructor
  · rintro ⟨h₁, h₂⟩ i hi
    by_cases him : i < mid - os
    · exact h₁ i him
    · have h := h₂ (i - (mid - os)) (by omega)
      rwa [show mid + (i - (mid - os)) = os + i by omega,
        show mid - os + (i - (mid - os)) = i by omega] at h
  · intro h
    refine ⟨fun i hi => h i (by omega), fun i hi => ?_⟩
    have h := h (mid - os + i) (by omega)
    rwa [show os + (mid - os + i) = mid + i by omega] at h

/-- Copying out gives the bytes held for the offsets. -/
theorem copyOut_spec {o : Bytes} (hst : os + o.length < wordLimit)
    (hh : ∀ x ∈ Ico os (os + o.length), ∃ page, pg.find? (x / pageBytes) = some page) :
    (copyOut pg os o : Exec ε _).Returns fun o' =>
      o'.length = o.length ∧
      ∀ i < o.length, o'[i]? = byteAt pg (os + i) := by
  rw [copyOut, add_eq hst, ok_bind, slices_eq hst.le, ok_bind]
  refine (returns_foldlM_read (f := copyOutSlice pg) hh (fun written n =>
    written.length = o.length ∧ ∀ i < n, written[i]? = byteAt pg (os + i)) ?_
    (Nat.le_add_right _ _) ⟨rfl, by simp⟩).bind fun s hs => returns_pure (by
      rwa [Nat.add_sub_cancel_left] at hs)
  rintro written mid page held hle hlt hn hf hsl hhd hhl ⟨hl, hb⟩
  have hnt := lt_nextBlock hlt
  have hr : mid - os + held.length ≤ written.length := by omega
  rw [copyOutSlice, unwrap_eq hf, ok_bind, hsl, ok_bind,
    overwrite_eq hr, ok_bind, firstSlice_len hlt]
  refine ⟨_, rfl, by dsimp only; omega, (length_overwriteFrom hr).trans hl, fun i hi => ?_⟩
  rw [getElem?_overwriteFrom hr]
  by_cases him : i < mid - os
  · rw [if_neg (by omega), hb i him]
  · rw [if_pos ⟨by omega, by omega⟩, hhl _ (by omega)]
    congr 1
    omega

/-- The last block of the offset space, `2 ^ 52 - 1`. -/
def lastBlock : ℕ := 4503599627370495

theorem lastBlock_end_le : wordLimit ≤ lastBlock * pageBytes + pageBytes := by decide

theorem block_end_lt (hk : k * pageBytes < wordLimit) (hne : k ≠ lastBlock) :
    k * pageBytes + pageBytes < wordLimit := by
  have hle : k < lastBlock + 1 := by
    by_contra hge
    have hm := Nat.mul_le_mul_right pageBytes (not_lt.mp hge)
    exact absurd hk (not_lt.mpr (lastBlock_end_le.trans hm))
  have hm := Nat.mul_le_mul_right pageBytes (Nat.lt_of_le_of_ne (Nat.le_of_lt_succ hle) hne)
  rw [Nat.succ_mul] at hm
  exact lt_of_le_of_lt hm (by decide)

/-- The end of a block is a word, except that of the last block. -/
private theorem blockEnd_spec {key : ℕ} (hlt : key * pageBytes < wordLimit) :
    (add (key * pageBytes) pageBytes : Exec ε ℕ).EnsuresUnless (key = lastBlock)
      fun l => l = (key + 1) * pageBytes := by
  rcases eq_or_ne key lastBlock with hl | hl
  · rw [add, if_neg (hl ▸ not_lt.mpr lastBlock_end_le)]
    exact ensures_abort hl _ _
  · rw [add_eq (block_end_lt hlt hl)]
    exact ensures_pure (Nat.succ_mul _ _).symm

theorem atLeast_eq_nil_iff {m : SortedMap ℕ ℕ} : m.atLeast k = [] ↔ ∀ a ∈ m.entries, a.1 < k := by
  simp only [atLeast, filter_eq_nil_iff, decide_eq_true_eq, not_le]

/-- The first interval from `stop` on starts below all the offsets covered there. -/
private theorem sdiff_inter_block_eq_empty {key : ℕ} (hne : ∀ a ∈ intervals.entries, a.1 < a.2)
    (hlow : ∀ a ∈ intervals.entries, start ≤ a.1)
    (hi : ∀ a ∈ intervals.entries, a.1 < stop → a.2 ≤ stop) (hk : key * pageBytes < stop) :
    (Intervals.cover intervals.entries \ Ico start stop) ∩ block key = ∅ ↔
      ∀ a, (intervals.atLeast stop).head? = some a → (key + 1) * pageBytes ≤ a.1 := by
  have hh : ∀ a, (intervals.atLeast stop).head? = some a →
      (a ∈ intervals.entries ∧ stop ≤ a.1) ∧ ∀ b ∈ intervals.entries, stop ≤ b.1 → a.1 ≤ b.1 := by
    intro a ha
    obtain ⟨rest, hr⟩ := head?_eq_some_iff.mp ha
    have hmem : ∀ b, b ∈ a :: rest ↔ b ∈ intervals.entries ∧ stop ≤ b.1 := by
      intro b
      rw [← hr]
      simp only [atLeast, List.mem_filter, decide_eq_true_eq]
    have hsr : (a :: rest).Pairwise fun x y => x.1 < y.1 := hr ▸ intervals.sorted.filter _
    refine ⟨(hmem a).mp List.mem_cons_self, fun b hb hs => ?_⟩
    rcases List.mem_cons.mp ((hmem b).mpr ⟨hb, hs⟩) with rfl | hb
    · exact le_rfl
    · exact (rel_of_pairwise_cons hsr hb).le
  rw [eq_empty_iff_forall_notMem]
  constructor
  · intro he a ha
    obtain ⟨⟨hmem, hs⟩, -⟩ := hh a ha
    by_contra hlt
    refine he a.1 (mem_inter.mpr ⟨mem_sdiff.mpr ⟨?_, ?_⟩, ?_⟩)
    · exact Intervals.mem_cover.mpr ⟨a, hmem, le_rfl, hne a hmem⟩
    · rw [mem_Ico]
      omega
    · rw [block, mem_Ico]
      omega
  · intro hall x hx
    rw [mem_inter, mem_sdiff, Intervals.mem_cover, block, mem_Ico, mem_Ico] at hx
    obtain ⟨⟨⟨b, hb, hbx, hxb⟩, hnot⟩, hbl⟩ := hx
    have hst := hlow b hb
    have hbs : stop ≤ b.1 := by
      by_contra hlt
      have := hi b hb (by omega)
      omega
    cases hl : (intervals.atLeast stop).head? with
    | none =>
      rw [head?_eq_none_iff, atLeast_eq_nil_iff] at hl
      exact absurd (hl b hb) (by omega)
    | some a =>
      have h₁ := hall a hl
      have h₂ := (hh a hl).2 b hb hbs
      omega

/-- Counting the pages that stay. The count aborts only at a page of the last block, when the
range reaches that block and an interval starts after it. -/
theorem remainingCount_spec (hC : Exact pg (Intervals.cover intervals.entries))
    (hne : ∀ a ∈ intervals.entries, a.1 < a.2) (hlow : ∀ a ∈ intervals.entries, start ≤ a.1)
    (hin : ∀ a ∈ intervals.entries, a.1 < stop → a.2 ≤ stop) (hst : stop < wordLimit) :
    (remainingCount pg intervals start stop : Exec ε _).EnsuresUnless
      (pg.contains lastBlock ∧ lastBlock * pageBytes < stop ∧
        ∃ a ∈ intervals.entries, stop ≤ a.1) fun count =>
        count = ((Intervals.cover intervals.entries \ Ico start stop).image
          (· / pageBytes)).card := by
  set C := Intervals.cover intervals.entries with hcd
  let removed : ℕ → Bool := fun key =>
    pg.contains key && decide ((C \ Ico start stop) ∩ block key = ∅)
  have hb : intervals.lastBelow start = none := by
    rw [lastBelow, getLast?_eq_none_iff, filter_eq_nil_iff]
    intro a ha
    have := hlow a ha
    simpa using this
  have hc : ∀ k, pg.contains k = true ↔ k ∈ C.image (· / pageBytes) := by
    intro k
    rw [SortedMap.contains, Option.isSome_iff_exists, hC.find?_iff]
  rw [remainingCount, hb]
  refine Exec.EnsuresUnless.bind (P := fun count => count = (pageKeys start stop).countP removed)
    ?_ fun count hct => ?_
  · refine (ensures_foldlM (fun count rest => (∀ k ∈ rest, k ∈ pageKeys start stop) ∧
      count + rest.countP removed = (pageKeys start stop).countP removed) ?_ _ 0
      ⟨fun _ => id, Nat.zero_add _⟩).mono fun count h => h.2
    rintro count key rest ⟨hr, hs⟩
    have hr' : ∀ k ∈ rest, k ∈ pageKeys start stop := fun k hk => hr k (List.mem_cons_of_mem _ hk)
    obtain ⟨-, -, hlt⟩ := mem_pageKeys.mp (hr key List.mem_cons_self)
    have he := sdiff_inter_block_eq_empty hne hlow hin hlt
    rw [mul_eq (by omega), ok_bind]
    rw [countP_cons] at hs
    by_cases hk : pg.contains key = true
    · rw [if_pos (by simpa using hk)]
      cases hh : (intervals.atLeast stop).head? with
      | none =>
        have hrm : removed key = true := by
          simp only [removed, hk, Bool.true_and, decide_eq_true_eq]
          exact he.mpr fun a ha => by rw [hh] at ha; cases ha
        rw [hrm, if_pos rfl] at hs
        exact ensures_pure ⟨hr', by omega⟩
      | some a =>
        have hmem : a ∈ intervals.entries ∧ stop ≤ a.1 := by
          have hmem := mem_of_mem_head? hh
          rwa [atLeast, List.mem_filter, decide_eq_true_eq] at hmem
        refine ((blockEnd_spec (hlt.trans hst)).weaken fun hl =>
          ⟨hl ▸ hk, hl ▸ hlt, a, hmem⟩).bind fun l hlim => ?_
        have hi : removed key = true ↔ ¬ a.1 < l := by
          simp only [removed, hk, Bool.true_and, decide_eq_true_eq]
          rw [he, hh, hlim]
          simp only [Option.some.injEq, forall_eq', not_lt]
        by_cases hf : a.1 < l
        · rw [if_neg (by rw [hi]; exact not_not.mpr hf)] at hs
          rw [if_pos hf]
          exact ensures_pure ⟨hr', by omega⟩
        · rw [if_pos (hi.mpr hf)] at hs
          rw [if_neg hf]
          exact ensures_pure ⟨hr', by omega⟩
    · have hrm : removed key = false := by simp [removed, hk]
      rw [hrm, if_neg Bool.false_ne_true] at hs
      rw [if_neg (by simpa using hk)]
      exact ensures_pure ⟨hr', by omega⟩
  · have hky : ((pageKeys start stop).filter removed).toFinset =
        C.image (· / pageBytes) \ (C \ Ico start stop).image (· / pageBytes) := by
      ext k
      simp only [removed, mem_toFinset, List.mem_filter, Bool.and_eq_true, decide_eq_true_eq,
        hc, inter_block_eq_empty, mem_sdiff]
      refine ⟨And.right, fun hk => ⟨?_, hk⟩⟩
      obtain ⟨x, hx, rfl⟩ := mem_image.mp hk.1
      have hxc : x ∈ Ico start stop := by
        by_contra hnot
        exact hk.2 (mem_image_of_mem _ (mem_sdiff.mpr ⟨hx, hnot⟩))
      exact mem_toFinset.mp (image_Ico start stop ▸ mem_image_of_mem _ hxc)
    have hsz := card_sdiff_add_card_eq_card
      (image_subset_image (f := (· / pageBytes)) (sdiff_subset (s := C) (t := Ico start stop)))
    rw [← hky, ← hC.size_eq, toFinset_card_of_nodup
      ((nodup_pageKeys start stop).filter _), ← countP_eq_length_filter, ← hct] at hsz
    rw [sub_eq (by omega)]
    exact ensures_pure (by omega)

/-- The pages that a flow has after a range has been added: those it holds, and one for each
missing block of the range. -/
theorem Exact.size_add_missing (h : Exact pg C) (start stop : ℕ) :
    pg.size + (pageKeys start stop).countP (fun key => !pg.contains key) =
      ((C ∪ Ico start stop).image (· / pageBytes)).card := by
  have hm : ((pageKeys start stop).filter fun key => !pg.contains key).toFinset =
      (Ico start stop).image (· / pageBytes) \ C.image (· / pageBytes) := by
    ext k
    rw [mem_toFinset, List.mem_filter, mem_sdiff, image_Ico, mem_toFinset,
      ← h.find?_iff, ← Option.isSome_iff_exists, Bool.not_eq_true', ← Bool.not_eq_true]
    rfl
  rw [image_union, union_comm, ← card_sdiff_add_card, ← hm, ← h.size_eq,
    toFinset_card_of_nodup ((nodup_pageKeys start stop).filter _),
    countP_eq_length_filter, Nat.add_comm]

end Pages

end PacketCraftr.Tcp
