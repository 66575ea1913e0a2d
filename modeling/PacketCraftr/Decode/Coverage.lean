import PacketCraftr.Decode.Session

/-!
# Dissection tiles the frame

While the loop runs, the layers appended so far tile the frame up to the cursor, and the bytes set
aside, innermost first, tile it from the end of the cursor on. Every way out of the loop appends the
range of the cursor, so that at the end the two tilings meet. Sorting the bytes set aside by offset
puts the innermost first, because each of them lies in front of those set aside before it.
-/

open List Except Nat

namespace PacketCraftr.Decode

variable {L D N : Type}

/-! ### The invariant -/

def sliceRange (frame : Bytes) (range : ByteRange) : Bytes :=
  (frame.drop range.start).take (range.stop - range.start)

/-- The bytes that a layer preserves, if it is not a decoded header. -/
def Piece.bytes? : Piece L D N → Option Bytes
  | .header _ => none
  | .raw bytes => some bytes
  | .malformed _ bytes _ => some bytes
  | .padding bytes _ => some bytes

/-- A layer whose fields lie in its range, and whose preserved bytes are those of its range. -/
structure Record.Sound (frame : Bytes) (r : Record L D N) : Prop where
  fields : ∀ field ∈ r.layout.fields, r.layout.range.start ≤ field.range.start ∧
    field.range.start ≤ field.range.stop ∧ field.range.stop ≤ r.layout.range.stop
  bytes : ∀ bytes, r.piece.bytes? = some bytes → bytes = sliceRange frame r.layout.range

/-- The layer at `index` is a decoded header, whose declared payload ends at `offset`. -/
def EndsAt (records : List (Record L D N)) (index offset : ℕ) : Prop :=
  ∃ r decoded, records[index]? = some r ∧ r.piece = .header decoded ∧
    r.layout.range.stop + decoded.payloadLen = offset

/-- The layers tile the frame up to `front`, within the layer budget. -/
structure LayersTile (frame : Bytes) (maxLayers : ℕ) (records : List (Record L D N)) (front : ℕ) :
    Prop where
  tiles : Tiles 0 front (records.map fun r => r.layout.range)
  index : ∀ (i : ℕ) (r : Record L D N), records[i]? = some r → r.layout.index = i
  sound : ∀ r ∈ records, r.Sound frame
  capacity : records.length ≤ maxLayers

/-- The layers tile the frame up to `front`, and the bytes set aside tile it from `back` on. -/
structure Covers (frame : Bytes) (maxLayers : ℕ) (s : Session L D N) (front back : ℕ) : Prop where
  layers : LayersTile frame maxLayers s.records front
  noPadding : ∀ r ∈ s.records, ∀ bytes outside, r.piece ≠ .padding bytes outside
  trailing : Tiles back frame.length (s.trailing.reverse.map TrailingBytes.range)
  kept : ∀ t ∈ s.trailing, t.bytes ≠ [] ∧ t.bytes = sliceRange frame t.range
  outside : ∀ t ∈ s.trailing, EndsAt s.records t.outsideLayer t.offset
  nested : s.trailing.Pairwise fun a b => a.outsideLayer < b.outsideLayer

section

variable {f : Bytes} {start stop : ℕ} (hle : start ≤ stop) (hst : stop ≤ f.length)
include hle hst

theorem sliceOriginal_eq : sliceOriginal f start (stop - start) = sliceRange f ⟨start, stop⟩ := by
  unfold sliceOriginal sliceRange
  rw [if_pos (by omega)]

theorem length_sliceOriginal : (sliceOriginal f start (stop - start)).length = stop - start := by
  rw [sliceOriginal_eq hle hst, sliceRange, length_take, length_drop]
  dsimp only
  omega

end

theorem EndsAt.append {records : List (Record L D N)} {index o : ℕ}
    (h : EndsAt records index o) (r : Record L D N) : EndsAt (records ++ [r]) index o := by
  obtain ⟨x, decoded, hx, h⟩ := h
  refine ⟨x, decoded, ?_, h⟩
  rw [getElem?_append_left (List.getElem?_eq_some_iff.mp hx).1, hx]

theorem getElem?_concat_eq_some {α : Type} {l : List α} {a b : α} {i : ℕ} :
    (l ++ [a])[i]? = some b ↔ l[i]? = some b ∨ i = l.length ∧ a = b := by
  rw [getElem?_append]
  split_ifs with h
  · exact ⟨.inl, fun hb => hb.resolve_right fun heq => absurd heq.1 (Nat.ne_of_lt h)⟩
  · rw [getElem?_eq_none (not_lt.mp h), getElem?_singleton]
    split_ifs with hi
    · simp
      omega
    · simp
      omega

section Layers

variable {fr : Bytes} {m : ℕ} {rc : List (Record L D N)} {front : ℕ}

theorem LayersTile.push (h : LayersTile fr m rc front) {r : Record L D N}
    {stop : ℕ} (hr : r.layout.range = ⟨front, stop⟩) (hle : front ≤ stop)
    (hi : r.layout.index = rc.length) (hs : r.Sound fr)
    (hc : rc.length < m) :
    LayersTile fr m (rc ++ [r]) stop where
  tiles := by
    rw [map_append, map_singleton, hr]
    exact Tiles.concat (s := ⟨front, stop⟩) h.tiles rfl hle
  index i x hx := by
    rcases getElem?_concat_eq_some.mp hx with hx | ⟨rfl, rfl⟩
    · exact h.index i x hx
    · exact hi
  sound x hx := by
    rcases mem_append.mp hx with hx | hx
    · exact h.sound x hx
    · rw [mem_singleton.mp hx]
      exact hs
  capacity := by
    rw [length_append]
    exact hc

/-- Every byte in front belongs to exactly one layer. -/
theorem LayersTile.existsUnique (h : LayersTile fr m rc front) {n : ℕ} (hn : n < front) :
    ∃! i : ℕ, ∃ r : Record L D N, rc[i]? = some r ∧ r.layout.range.Contains n := by
  obtain ⟨i, ⟨range, hrn, hc⟩, hu⟩ := h.tiles.existsUnique (zero_le n) hn
  rw [getElem?_map, Option.map_eq_some_iff] at hrn
  obtain ⟨r, hr, rfl⟩ := hrn
  refine ⟨i, ⟨r, hr, hc⟩, ?_⟩
  rintro j ⟨r', hr', hc'⟩
  refine hu j ⟨_, ?_, hc'⟩
  rw [getElem?_map, hr', Option.map_some]

theorem sound_bytesLayer {piece : Piece L D N} {index : ℕ} {p : BuiltinProtocol}
    {o : ℕ} {bytes : Bytes} (hp : piece.bytes? = some bytes)
    (hb : bytes = sliceRange fr ⟨o, o + bytes.length⟩) :
    Record.Sound fr ⟨piece, bytesLayerLayout index p o bytes.length⟩ where
  fields field hf := by
    rw [bytesLayerLayout, mem_singleton] at hf
    rw [hf]
    exact ⟨le_rfl, le_add_right _ _, le_rfl⟩
  bytes bytes' hb' := by
    obtain rfl : bytes = bytes' := Option.some.inj (hp.symm.trans hb')
    exact hb

end Layers

namespace Covers

variable {fm : Bytes} {ml : ℕ} {s : Session L D N} {front back : ℕ}

variable (h : Covers fm ml s front back)
include h

theorem congr {s' : Session L D N} (hr : s'.records = s.records)
    (ht : s'.trailing = s.trailing) : Covers fm ml s' front back := by
  obtain ⟨h1, h2, h3, h4, h5, h6⟩ := h
  exact ⟨hr ▸ h1, hr ▸ h2, ht ▸ h3, ht ▸ h4, by rw [hr, ht]; exact h5, ht ▸ h6⟩

theorem push {r : Record L D N} {stop : ℕ} (hl : LayersTile fm ml (s.records ++ [r]) stop)
    (hp : ∀ bytes outside, r.piece ≠ .padding bytes outside) :
    Covers fm ml { s with records := s.records ++ [r] } stop back where
  layers := hl
  noPadding x hx := by
    rcases mem_append.mp hx with hx | hx
    · exact h.noPadding x hx
    · rw [mem_singleton.mp hx]
      exact hp
  trailing := h.trailing
  kept := h.kept
  outside t ht := (h.outside t ht).append r
  nested := h.nested

theorem appendRaw (hle : front ≤ back) (hc : s.records.length < ml) :
    Covers fm ml (s.appendRaw (sliceOriginal fm front (back - front)) front) back back := by
  have hl := length_sliceOriginal hle h.trailing.le
  have hst : front + (sliceOriginal fm front (back - front)).length = back := by omega
  refine h.push (h.layers.push ?_ hle rfl (sound_bytesLayer rfl ?_) hc) (by simp)
  · rw [bytesLayerLayout, hst]
  · rw [hst]
    exact sliceOriginal_eq hle h.trailing.le

theorem appendMalformed (i r : String) (bytes : Bytes) {stop : ℕ}
    (hst : front + bytes.length = stop) (hb : bytes = sliceRange fm ⟨front, stop⟩)
    (hc : s.records.length < ml) :
    Covers fm ml (s.appendMalformed i bytes r front) stop back := by
  refine h.push (h.layers.push (by rw [hst]) (by omega) rfl ⟨by simp, ?_⟩ hc) (by simp)
  intro bytes' hb'
  cases hb'
  rw [hst]
  exact hb

theorem setAside {o : ℕ} (hlt : o < back) {index : ℕ}
    (hi : EndsAt s.records index o) (hns : ∀ t ∈ s.trailing, t.outsideLayer < index) :
    Covers fm ml { s with trailing := s.trailing ++
      [⟨o, sliceOriginal fm o (back - o), index⟩] } front o := by
  have hl := length_sliceOriginal hlt.le h.trailing.le
  have hst : o + (sliceOriginal fm o (back - o)).length = back := by omega
  refine ⟨h.layers, h.noPadding, ?_, ?_, ?_, ?_⟩
  · rw [reverse_append, reverse_singleton, singleton_append, map_cons]
    refine ⟨rfl, le_add_right _ _, ?_⟩
    rw [TrailingBytes.range, hst]
    exact h.trailing
  · intro t ht
    rcases mem_append.mp ht with ht | ht
    · exact h.kept t ht
    · rw [mem_singleton.mp ht, TrailingBytes.range, hst]
      refine ⟨fun hn => ?_, sliceOriginal_eq hlt.le h.trailing.le⟩
      dsimp only at hn
      rw [hn, length_nil] at hl
      omega
  · intro t ht
    rcases mem_append.mp ht with ht | ht
    · exact h.outside t ht
    · rw [mem_singleton.mp ht]
      exact hi
  · rw [pairwise_append]
    refine ⟨h.nested, pairwise_singleton _ _, fun t ht t' ht' => ?_⟩
    rw [mem_singleton.mp ht']
    exact hns t ht

end Covers

/-! ### One turn -/

/-- A validated layer lies in the cursor, with its payload behind it and its fields in it. -/
structure ValidatedLayer.Fits (layer : ValidatedLayer L D N) (range : ByteRange) : Prop where
  payloadEnd_eq : layer.payloadEnd = layer.layerEnd + layer.decoded.payloadLen
  layerEnd_eq : layer.layerEnd = range.start + layer.decoded.consumed
  payloadEnd_le : layer.payloadEnd ≤ range.stop
  progress : layer.decoded.stop = false → 0 < layer.decoded.consumed
  fields : ∀ field ∈ layer.decoded.fields, range.start ≤ field.range.start ∧
    field.range.start ≤ field.range.stop ∧ field.range.stop ≤ layer.layerEnd

theorem validateLayer_fits {kind : LayerKind L} {c : Codec L D N} {cursor : Cursor D}
    {d : Decoded L D N} {layer : ValidatedLayer L D N}
    (hcr : cursor.bytes.start ≤ cursor.bytes.stop)
    (h : validateLayer kind c cursor d = .ok layer) : layer.Fits cursor.bytes := by
  obtain ⟨-, h⟩ := rejectIf_bind_eq_ok.mp h
  obtain ⟨_, -, h⟩ := bind_eq_ok.mp h
  obtain ⟨hc, h⟩ := rejectIf_bind_eq_ok.mp h
  obtain ⟨hp, h⟩ := rejectIf_bind_eq_ok.mp h
  obtain ⟨hf, h⟩ := rejectIf_bind_eq_ok.mp h
  cases h
  refine ⟨(add_assoc _ _ _).symm, rfl, ?_, ?_, ?_⟩
  · dsimp only
    omega
  · intro hst
    dsimp only at hst ⊢
    simp only [hst, Bool.not_false, true_and] at hc
    omega
  · intro field hfd
    obtain ⟨original, ho, rfl⟩ := mem_map.mp hfd
    have hr : ¬ (original.range.stop < original.range.start) ∧
        ¬ (d.consumed < original.range.stop) := by
      simp only [any_eq_true, not_exists, not_and, Bool.or_eq_true, decide_eq_true_eq, not_or] at hf
      exact hf original ho
    dsimp only [FieldLayout.shift]
    omega

/-- What a turn leaves: all bytes covered, or a shorter cursor over what is left. -/
def Continues (frame : Bytes) (maxLayers length : ℕ) :
    Session L D N × Option (Cursor D) → Prop
  | (s, none) => ∃ mid, Covers frame maxLayers s mid mid
  | (s, some cursor) => Covers frame maxLayers s cursor.bytes.start cursor.bytes.stop ∧
      cursor.bytes.start < cursor.bytes.stop ∧ cursor.bytes.stop - cursor.bytes.start < length

namespace Session

variable {fra : Bytes} {maxLayers : ℕ} {s s' : Session L D N} {c : Cursor D}
  {rg : Registry L D N} {kind : LayerKind L} {l : ValidatedLayer L D N}
  {child : Option (D × String)}

theorem lt_of_ensureLayerCapacity (h : s.ensureLayerCapacity maxLayers = .ok ()) :
    s.records.length < maxLayers :=
  not_le.mp (rejectIf_eq_ok.mp h)

theorem acceptLayer_records : (s.acceptLayer rg kind c l child).records =
    s.records ++ [⟨.header l.decoded, ⟨s.records.length, l.protocol,
      ⟨c.bytes.start, l.layerEnd⟩, l.decoded.fields⟩⟩] := by
  unfold acceptLayer enterChild
  split <;> rfl

theorem acceptLayer_trailing : (s.acceptLayer rg kind c l child).trailing = s.trailing := by
  unfold acceptLayer enterChild
  split <;> rfl

theorem acceptLayer_covers (rg : Registry L D N) (kind : LayerKind L) (child : Option (D × String))
    (h : Covers fra maxLayers s c.bytes.start c.bytes.stop)
    (hf : l.Fits c.bytes) (hc : s.records.length < maxLayers) :
    Covers fra maxLayers ((s.preserveTrailingBytes fra c l).acceptLayer rg kind c l child)
      l.layerEnd l.payloadEnd := by
  let r : Record L D N := ⟨.header l.decoded, ⟨s.records.length, l.protocol,
    ⟨c.bytes.start, l.layerEnd⟩, l.decoded.fields⟩⟩
  have hle : c.bytes.start ≤ l.layerEnd := by
    rw [hf.layerEnd_eq]
    exact le_add_right _ _
  have hp : Covers fra maxLayers { s with records := s.records ++ [r] } l.layerEnd c.bytes.stop :=
    h.push (h.layers.push rfl hle rfl ⟨hf.fields, by simp [r, Piece.bytes?]⟩ hc) (by simp [r])
  by_cases heq : l.payloadEnd = c.bytes.stop
  · rw [preserveTrailingBytes, if_pos heq, heq]
    exact hp.congr acceptLayer_records acceptLayer_trailing
  · have he : EndsAt (s.records ++ [r]) s.records.length l.payloadEnd :=
      ⟨r, l.decoded, getElem?_concat_eq_some.mpr (.inr ⟨rfl, rfl⟩), rfl, hf.payloadEnd_eq.symm⟩
    have hn : ∀ t ∈ s.trailing, t.outsideLayer < s.records.length := by
      intro t ht
      obtain ⟨x, decoded, hx, -⟩ := h.outside t ht
      exact (List.getElem?_eq_some_iff.mp hx).1
    have ha := hp.setAside (lt_of_le_of_ne hf.payloadEnd_le heq) he hn
    refine ha.congr ?_ ?_
    · rw [acceptLayer_records, preserveTrailingBytes, if_neg heq]
      rfl
    · rw [acceptLayer_trailing, preserveTrailingBytes, if_neg heq]
      rfl

theorem preserveRaw_covers {front back : ℕ} (h : Covers fra maxLayers s front back)
    (hle : front ≤ back) (hc : s.records.length < maxLayers) (d : Diagnostic) :
    Covers fra maxLayers (s.preserveRaw fra front (back - front) d) back back :=
  (h.appendRaw hle hc).congr rfl rfl

variable (h : Covers fra maxLayers s c.bytes.start c.bytes.stop)
include h

variable {r : Session L D N × Option (Cursor D)}

theorem commitLayer_covers (hf : l.Fits c.bytes) (hcp : s.records.length < maxLayers)
    (hc : (s.preserveTrailingBytes fra c l).commitLayer rg kind maxLayers fra c l child = .ok r) :
    Continues fra maxLayers (c.bytes.stop - c.bytes.start) r := by
  have ha := acceptLayer_covers rg kind child h hf hcp
  have hl : l.payloadEnd - l.layerEnd = l.decoded.payloadLen := by
    rw [hf.payloadEnd_eq, Nat.add_sub_cancel_left]
  have hle : l.layerEnd ≤ l.payloadEnd := by
    rw [hf.payloadEnd_eq]
    exact le_add_right _ _
  unfold commitLayer at hc
  dsimp only at hc
  split_ifs at hc with he hst
  · -- The header is the end of the payload; a required child is preserved as malformed.
    obtain ⟨s', hs', hc⟩ := bind_eq_ok.mp hc
    cases hc
    have heq : l.payloadEnd = l.layerEnd := by omega
    rw [heq] at ha
    unfold preserveMissingRequiredChild at hs'
    split at hs'
    · cases hs'
      exact ⟨_, ha⟩
    · obtain ⟨_, hr, hs'⟩ := bind_eq_ok.mp hs'
      cases hs'
      have hn : ([] : Bytes) = sliceRange fra ⟨l.layerEnd, l.layerEnd⟩ := by
        simp [sliceRange]
      exact ⟨l.layerEnd, (ha.appendMalformed _ _ [] (add_zero _) hn
        (lt_of_ensureLayerCapacity hr)).congr rfl rfl⟩
  · obtain ⟨s', hs', hc⟩ := bind_eq_ok.mp hc
    cases hc
    obtain ⟨_, hr, hs'⟩ := bind_eq_ok.mp hs'
    cases hs'
    rw [← hl]
    exact ⟨_, preserveRaw_covers ha hle (lt_of_ensureLayerCapacity hr) _⟩
  · split at hc
    · obtain ⟨s', hs', hc⟩ := bind_eq_ok.mp hc
      cases hc
      obtain ⟨_, hr, hs'⟩ := bind_eq_ok.mp hs'
      cases hs'
      rw [← hl]
      exact ⟨_, preserveRaw_covers ha hle (lt_of_ensureLayerCapacity hr) _⟩
    · cases hc
      have hp := hf.progress (by simpa using hst)
      have hend := hf.layerEnd_eq
      have hpy := hf.payloadEnd_le
      refine ⟨ha, ?_, ?_⟩
      · dsimp only
        omega
      · dsimp only
        omega

/-- A turn keeps the frame covered, and a next cursor is shorter. -/
theorem turn_covers (hc : c.bytes.start ≤ c.bytes.stop)
    (ht : s.turn rg kind maxLayers fra c = .ok r) :
    Continues fra maxLayers (c.bytes.stop - c.bytes.start) r := by
  obtain ⟨_, hr, ht⟩ := bind_eq_ok.mp ht
  have hcp := lt_of_ensureLayerCapacity hr
  split at ht
  · obtain ⟨s', hs', ht⟩ := bind_eq_ok.mp ht
    cases ht
    obtain ⟨-, hs'⟩ := rejectIf_bind_eq_ok.mp hs'
    cases hs'
    exact ⟨_, preserveRaw_covers h hc hcp _⟩
  · dsimp only at ht
    split at ht
    · cases ht
      have hlen := length_sliceOriginal hc h.trailing.le
      exact ⟨_, (h.appendMalformed _ _ _ (by omega) (sliceOriginal_eq hc h.trailing.le)
        hcp).congr rfl rfl⟩
    · obtain ⟨l, hl, ha⟩ := bind_eq_ok.mp ht
      dsimp only at ha
      split_ifs at ha
      · cases ha
        exact ⟨_, preserveRaw_covers h hc hcp _⟩
      · exact commitLayer_covers h (validateLayer_fits hc hl) hcp ha

end Session

/-! ### The loop -/

variable {frame : Bytes} {mx : ℕ} {s : Session L D N} {rest : List TrailingBytes}

/-- The loop ends within one turn more than there are bytes, and leaves all of them covered. -/
theorem loop_covers (registry : Registry L D N) (kind : LayerKind L) (cursor : Cursor D)
    {turns : ℕ} (h : Covers frame mx s cursor.bytes.start cursor.bytes.stop)
    (hcr : cursor.bytes.start ≤ cursor.bytes.stop)
    (ht : cursor.bytes.stop - cursor.bytes.start < turns) :
    ∃ result, loop registry kind mx frame turns s cursor = some result ∧
      ∀ s', result = .ok s' → ∃ mid, Covers frame mx s' mid mid := by
  induction turns generalizing s cursor with
  | zero => exact absurd ht (not_lt_zero _)
  | succ turns ih =>
    rw [loop]
    cases htn : s.turn registry kind mx frame cursor with
    | error e => exact ⟨_, rfl, nofun⟩
    | ok result =>
      have hc := Session.turn_covers h hcr htn
      obtain ⟨s', _ | next⟩ := result
      · refine ⟨_, rfl, fun s'' heq => ?_⟩
        cases heq
        exact hc
      · obtain ⟨hcv, hlt, hs⟩ := hc
        exact ih next hcv hlt.le (by omega)

/-! ### The padding at the end -/

theorem orderedInsert_eq_concat {α : Type} {r : α → α → Prop} [DecidableRel r] {a : α} {l : List α}
    (h : ∀ b ∈ l, ¬ r a b) : l.orderedInsert r a = l ++ [a] := by
  induction l with
  | nil => rfl
  | cons b l ih =>
    rw [orderedInsert_cons, if_neg (h b mem_cons_self),
      ih fun b' hb' => h b' (mem_cons_of_mem _ hb'), cons_append]

/-- Bytes set aside that lie in front of each other are put in order by turning them around. -/
theorem insertionSort_trailing {back stop : ℕ} {tr : List TrailingBytes}
    (ht : Tiles back stop (tr.reverse.map TrailingBytes.range))
    (hk : ∀ t ∈ tr, t.bytes ≠ []) :
    tr.insertionSort (fun a b => a.offset ≤ b.offset) = tr.reverse := by
  induction tr generalizing stop with
  | nil => rfl
  | cons t tr ih =>
    rw [reverse_cons, map_append] at ht
    obtain ⟨mid, hi, hs, -⟩ := tiles_append.mp ht
    rw [insertionSort_cons, ih hi fun t' ht' => hk t' (mem_cons_of_mem _ ht'), reverse_cons]
    refine orderedInsert_eq_concat fun t' ht' => ?_
    -- Bytes set aside later end where these start, and there are some.
    have hb := hi.bounds (mem_map_of_mem ht')
    have hp := length_pos_of_ne_nil (hk t' (mem_cons_of_mem _ (mem_reverse.mp ht')))
    have hm : t.offset = mid := hs
    simp only [TrailingBytes.range] at hb
    omega

/-- What a dissection of a frame is: layers that tile it, within the layer budget, with padding that
names the header in front of whose end it lies, innermost first. -/
structure Dissects (frame : Bytes) (maxLayers : ℕ) (records : List (Record L D N)) : Prop where
  layers : LayersTile frame maxLayers records frame.length
  outside : ∀ (i : ℕ) (r : Record L D N) (bytes : Bytes) (index : ℕ), records[i]? = some r →
    r.piece = .padding bytes index → index < i ∧ EndsAt records index r.layout.range.start
  innermostFirst : ∀ (i j : ℕ) (r r' : Record L D N) (bytes bytes' : Bytes) (index index' : ℕ),
    i < j → records[i]? = some r → records[j]? = some r' → r.piece = .padding bytes index →
    r'.piece = .padding bytes' index' → index' < index

/-- The layers while the padding is appended: what is set aside is still to come. -/
structure Padded (frame : Bytes) (maxLayers : ℕ) (records : List (Record L D N)) (front : ℕ)
    (rest : List TrailingBytes) : Prop where
  layers : LayersTile frame maxLayers records front
  tiles : Tiles front frame.length (rest.map TrailingBytes.range)
  kept : ∀ t ∈ rest, t.bytes = sliceRange frame t.range
  ends : ∀ t ∈ rest, EndsAt records t.outsideLayer t.offset
  nested : rest.Pairwise fun a b => b.outsideLayer < a.outsideLayer
  outside : ∀ (i : ℕ) (r : Record L D N) (bytes : Bytes) (index : ℕ), records[i]? = some r →
    r.piece = .padding bytes index → index < i ∧ EndsAt records index r.layout.range.start ∧
      ∀ t ∈ rest, t.outsideLayer < index
  innermostFirst : ∀ (i j : ℕ) (r r' : Record L D N) (bytes bytes' : Bytes) (index index' : ℕ),
    i < j → records[i]? = some r → records[j]? = some r' → r.piece = .padding bytes index →
    r'.piece = .padding bytes' index' → index' < index

theorem Padded.append {front : ℕ} {t : TrailingBytes}
    (h : Padded frame mx s.records front (t :: rest))
    (hrm : s.records.length < mx) :
    Padded frame mx (s.appendPadding t.bytes t.offset t.outsideLayer).records
      (t.offset + t.bytes.length) rest := by
  obtain ⟨hs, -, hrs⟩ := h.tiles
  obtain rfl : t.offset = front := hs
  have he := h.ends t mem_cons_self
  have hi : t.outsideLayer < s.records.length := by
    obtain ⟨r, -, hr, -⟩ := he
    exact (List.getElem?_eq_some_iff.mp hr).1
  refine ⟨?_, hrs, ?_, ?_, h.nested.of_cons, ?_, ?_⟩
  · refine h.layers.push rfl (le_add_right _ _) rfl (sound_bytesLayer rfl ?_) hrm
    exact h.kept t mem_cons_self
  · exact fun t' ht' => h.kept t' (mem_cons_of_mem _ ht')
  · exact fun t' ht' => (h.ends t' (mem_cons_of_mem _ ht')).append _
  · intro i r bytes index hr hp
    rcases getElem?_concat_eq_some.mp hr with hr | ⟨rfl, rfl⟩
    · obtain ⟨hlt, hend, hl⟩ := h.outside i r bytes index hr hp
      exact ⟨hlt, hend.append _, fun t' ht' => hl t' (mem_cons_of_mem _ ht')⟩
    · cases hp
      exact ⟨hi, he.append _, (pairwise_cons.mp h.nested).1⟩
  · intro i j r r' bytes bytes' index index' hlt hr hr' hp hp'
    rcases getElem?_concat_eq_some.mp hr with hr | ⟨rfl, rfl⟩
    · rcases getElem?_concat_eq_some.mp hr' with hr' | ⟨rfl, rfl⟩
      · exact h.innermostFirst i j r r' bytes bytes' index index' hlt hr hr' hp hp'
      · cases hp'
        exact (h.outside i r bytes index hr hp).2.2 t mem_cons_self
    · rcases getElem?_concat_eq_some.mp hr' with hr' | ⟨rfl, rfl⟩
      · exact absurd (List.getElem?_eq_some_iff.mp hr').1 (not_lt.mpr hlt.le)
      · exact absurd hlt (lt_irrefl _)

theorem appendTrailing_padded {s' : Session L D N} {front : ℕ}
    (h : Padded frame mx s.records front rest)
    (hf : rest.foldlM (fun s t => do
      s.ensureLayerCapacity mx
      .ok (s.appendPadding t.bytes t.offset t.outsideLayer)) s = .ok s') :
    Dissects frame mx s'.records := by
  induction rest generalizing s front with
  | nil =>
    cases hf
    obtain rfl : front = frame.length := h.tiles
    refine ⟨h.layers, fun i r bytes index hr hp => ?_, h.innermostFirst⟩
    obtain ⟨hlt, hend, -⟩ := h.outside i r bytes index hr hp
    exact ⟨hlt, hend⟩
  | cons t rest ih =>
    obtain ⟨s₁, hs₁, hf⟩ := bind_eq_ok.mp hf
    obtain ⟨_, hrm, hs₁⟩ := bind_eq_ok.mp hs₁
    cases hs₁
    exact ih (h.append (Session.lt_of_ensureLayerCapacity hrm)) hf

theorem finish_dissects {mid : ℕ} (h : Covers frame mx s mid mid) {d : DecodedPacket L D N}
    (hf : finish mx frame s = .ok d) :
    Dissects frame mx d.records := by
  unfold finish at hf
  rw [insertionSort_trailing h.trailing fun t ht => (h.kept t ht).1] at hf
  obtain ⟨s', hs', hf⟩ := bind_eq_ok.mp hf
  cases hf
  have hpd : Padded frame mx s.records mid s.trailing.reverse := by
    refine ⟨h.layers, h.trailing, ?_, ?_, pairwise_reverse.mpr h.nested, ?_, ?_⟩
    · exact fun t ht => (h.kept t (mem_reverse.mp ht)).2
    · exact fun t ht => h.outside t (mem_reverse.mp ht)
    · intro i r bytes index hr hp
      exact absurd hp (h.noPadding r (mem_of_getElem? hr) bytes index)
    · intro i j r r' bytes bytes' index index' _ hr _ hp _
      exact absurd hp (h.noPadding r (mem_of_getElem? hr) bytes index)
  exact appendTrailing_padded (s := { s with trailing := [] }) hpd hs'

theorem layersTile_nil : LayersTile frame mx ([] : List (Record L D N)) 0 :=
  ⟨rfl, nofun, nofun, zero_le _⟩

theorem rawDecodedFrame_dissects {lt : ℕ} (hpos : 0 < mx) :
    Dissects frame mx (rawDecodedFrame frame lt : DecodedPacket L D N).records := by
  have hz : 0 + frame.length = frame.length := zero_add _
  have hn : ∀ (i : ℕ) (r : Record L D N) (bytes : Bytes) (index : ℕ),
      (rawDecodedFrame frame lt : DecodedPacket L D N).records[i]? = some r →
      r.piece ≠ .padding bytes index := by
    intro i r bytes index hr
    rw [mem_singleton.mp (mem_of_getElem? hr)]
    simp
  refine ⟨?_, ?_, ?_⟩
  · refine layersTile_nil.push (by rw [bytesLayerLayout, hz]) (zero_le _) rfl
      (sound_bytesLayer rfl ?_) hpos
    simp [sliceRange]
  · exact fun i r bytes index hr hp => absurd hp (hn i r bytes index hr)
  · exact fun i j r r' bytes bytes' index index' _ hr _ hp _ =>
      absurd hp (hn i r bytes index hr)

theorem covers_start (mx : ℕ) (allowTrailingPadding : Bool) :
    Covers frame mx ({ allowTrailingPadding } : Session L D N) 0 frame.length :=
  ⟨layersTile_nil, nofun, rfl, nofun, nofun, List.Pairwise.nil⟩

/-- The dissection ends, and the layers that it returns tile the frame: every byte belongs to
exactly one layer, within the layer budget, every field lies in its layer, and the padding names,
innermost first, the header behind whose declared payload it lies. -/
theorem decode_tiles (registry : Registry L D N) (kind : LayerKind L) (limits : Limits)
    (linkType : ℕ) (frame : Bytes) :
    ∃ result, decode registry kind limits linkType frame = some result ∧
      ∀ d, result = .ok d → Dissects frame limits.maxLayers d.records ∧
        ∀ n < frame.length, ∃! i : ℕ, ∃ r : Record L D N, d.records[i]? = some r ∧
          r.layout.range.Contains n := by
  suffices h : ∃ result, decode registry kind limits linkType frame = some result ∧
      ∀ d, result = .ok d → Dissects frame limits.maxLayers d.records by
    obtain ⟨result, hr, hd⟩ := h
    exact ⟨result, hr, fun d h => ⟨hd d h, fun n hn => (hd d h).layers.existsUnique hn⟩⟩
  unfold decode
  split_ifs with hz hsz
  · exact ⟨_, rfl, nofun⟩
  · exact ⟨_, rfl, nofun⟩
  · split
    · refine ⟨_, rfl, fun d hd => ?_⟩
      cases hd
      exact rawDecodedFrame_dissects (pos_of_ne_zero hz)
    · rename_i root hrt
      obtain ⟨result, hr, hc⟩ := loop_covers registry kind
        ⟨root, none, ⟨0, frame.length⟩⟩ (covers_start limits.maxLayers _) (zero_le _)
        (lt_add_one frame.length)
      rw [hr]
      refine ⟨_, rfl, fun d hd => ?_⟩
      obtain ⟨s, hs, hf⟩ := bind_eq_ok.mp hd
      obtain ⟨mid, hm⟩ := hc s hs
      exact finish_dissects hm hf

/-! ### A frame with a trailing byte -/

/-- Layers are protocol names; an outer header declares one byte of payload, an inner one none. -/
def sampleKind : LayerKind String := ⟨id, fun _ => .ok (), fun _ => none⟩

def sampleRegistry : Registry String Unit Unit where
  codec protocol := some
    { acceptsDecodedProtocol := fun _ => true
      decode := fun _ _ => .ok (if protocol = "outer"
        then ⟨"outer", 1, 1, [()], [⟨0, ⟨0, 1⟩⟩], [], false, none⟩
        else ⟨"inner", 1, 0, [], [], [], true, none⟩) }
  rootForLinkType _ := some "outer"
  firstChildFor parent _ := if parent = "outer" then some ((), "inner") else none
  allowsTrailingPadding _ := true

/-- The third byte lies behind the payload of the outer header and becomes padding. -/
theorem decode_tiles_trailingByte : ∃ d : DecodedPacket String Unit Unit,
    decode sampleRegistry sampleKind ⟨3, 64⟩ 1 [1, 2, 3] = some (.ok d) ∧
      d.records.length = 3 ∧ Dissects [1, 2, 3] 3 d.records := by
  obtain ⟨result, hr, h⟩ := decode_tiles sampleRegistry sampleKind ⟨3, 64⟩ 1 [1, 2, 3]
  exact ⟨_, rfl, rfl, (h _ (Option.some.inj (hr.symm.trans rfl))).1⟩

end PacketCraftr.Decode
