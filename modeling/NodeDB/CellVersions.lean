import NodeDB.SparseTileRows

/-!
# The versions of a coordinate that a store holds

For one coordinate, the store holds a list of versions: those of the segments,
oldest segment first, and then those of the memtable.  A flush leaves the list
as it is.  While it ascends in system time, a read sees its part up to the
cutoff from the end.
-/

namespace NodeDB.ArrayEngine

open ByteFrame Std List ArrayStore

/-! ## Cutting ascending lists -/

section Cuts

variable {α : Type} {p : α → Bool} {items : List α}

theorem takeWhile_eq_filter (h : items.Pairwise fun a b => p b = true → p a = true) :
    items.takeWhile p = items.filter p := by
  induction h with
  | nil => rfl
  | @cons a rest hhead _ ih =>
    cases hp : p a with
    | true => rw [takeWhile_cons_of_pos hp, filter_cons_of_pos hp, ih]
    | false =>
      have hrest : rest.filter p = [] := by
        rw [filter_eq_nil_iff]
        intro b hb hpb
        rw [hhead b hb hpb] at hp
        exact absurd hp (by simp)
      rw [takeWhile_cons_of_neg (by simp [hp]), filter_cons_of_neg (by simp [hp]), hrest]

theorem dropWhile_eq_filter (h : items.Pairwise fun a b => p b = true → p a = true) :
    items.dropWhile p = items.filter fun a => !p a := by
  induction h with
  | nil => rfl
  | @cons a rest hhead _ ih =>
    cases hp : p a with
    | true =>
      rw [dropWhile_cons_of_pos hp, filter_cons_of_neg (by simp [hp]), ih]
    | false =>
      have hrest : rest.filter (fun b => !p b) = rest := by
        rw [filter_eq_self]
        intro b hb
        cases hpb : p b with
        | false => rfl
        | true =>
          rw [hhead b hb hpb] at hp
          exact absurd hp (by simp)
      rw [dropWhile_cons_of_neg (by simp [hp]), filter_cons_of_pos (by simp [hp]), hrest]

end Cuts

/-! ## Tile versions in order -/

theorem TileId.compare_lt {a b : TileId} :
    compare a b = .lt ↔ a.hilbertPrefix < b.hilbertPrefix ∨
      a.hilbertPrefix = b.hilbertPrefix ∧ a.systemFromMs < b.systemFromMs := by
  change (compare a.hilbertPrefix b.hilbertPrefix).then (compare a.systemFromMs b.systemFromMs) =
    .lt ↔ _
  rw [Ordering.then_eq_lt, compare_lt_iff_lt, LawfulEqOrd.compare_eq_iff_eq, compare_lt_iff_lt]

section Versions

variable {ν : Type} (codec : CellCodec ν) (hilbert : Nat) (coord : Coord)

def SparseTile.bytesAt (tile : SparseTile ν) : Option Bytes :=
  match extractCellBytes codec tile coord with
  | .ok bytes => bytes
  | .error _ => none

/-- The versions of the coordinate among the tiles, in their order. -/
def versionsAmong {τ : Type} (bytesAt : τ → Option Bytes) (tiles : List (TileId × τ)) :
    List (TileId × Bytes) :=
  (tiles.filter fun tile => tile.1.hilbertPrefix = hilbert).filterMap fun tile =>
    (bytesAt tile.2).map fun bytes => (tile.1, bytes)

def Segment.versions (segment : Segment ν) : List (TileId × Bytes) :=
  versionsAmong hilbert (SparseTile.bytesAt codec coord) segment

def Memtable.versions (memtable : Memtable) : List (TileId × Bytes) :=
  versionsAmong hilbert (TileBuffer.getCellBytes codec · coord) memtable.toList

def ArrayStore.flushed (store : ArrayStore ν) : List (TileId × Bytes) :=
  store.segments.flatMap (Segment.versions codec hilbert coord)

def ArrayStore.held (store : ArrayStore ν) : List (TileId × Bytes) :=
  store.flushed codec hilbert coord ++ Memtable.versions codec hilbert coord store.memtable

def Ascending {τ : Type} (tiles : List (TileId × τ)) : Prop :=
  tiles.Pairwise fun one other => compare one.1 other.1 = .lt

variable {codec hilbert coord}

variable {τ : Type} {segment : Segment ν} {store : ArrayStore ν} {schema : ArraySchema}

variable {tiles : List (TileId × τ)} {shuffle : TileId → Shuffle (Bytes × Bytes)}

theorem versionsAmong_ascending {bytesAt : τ → Option Bytes} (h : Ascending tiles) :
    (versionsAmong hilbert bytesAt tiles).Pairwise fun one other =>
      one.1.systemFromMs < other.1.systemFromMs := by
  rw [versionsAmong, pairwise_filterMap, pairwise_filter]
  refine h.imp fun {one other} hlt hone hother version hversion version' hversion' => ?_
  obtain ⟨_, -, rfl⟩ := Option.map_eq_some_iff.mp hversion
  obtain ⟨_, -, rfl⟩ := Option.map_eq_some_iff.mp hversion'
  obtain hpre | ⟨-, htime⟩ := TileId.compare_lt.mp hlt
  · have heq := (of_decide_eq_true hone).trans (of_decide_eq_true hother).symm
    exact absurd heq hpre.ne
  · exact htime

theorem mem_versionsAmong {bytesAt : τ → Option Bytes} {id : TileId} {bytes : Bytes} :
    (id, bytes) ∈ versionsAmong hilbert bytesAt tiles ↔
      id.hilbertPrefix = hilbert ∧ ∃ tile, (id, tile) ∈ tiles ∧ bytesAt tile = some bytes := by
  simp only [versionsAmong, mem_filterMap, mem_filter, Option.map_eq_some_iff,
    Prod.mk.injEq, decide_eq_true_eq, Prod.exists]
  constructor
  · rintro ⟨id', tile, ⟨hmem, hpre⟩, bytes', hbytes, rfl, rfl⟩
    exact ⟨hpre, tile, hmem, hbytes⟩
  · rintro ⟨hpre, tile, hmem, hbytes⟩
    exact ⟨id, tile, ⟨hmem, hpre⟩, bytes, hbytes, rfl, rfl⟩

theorem versionsAmong_cons (bytesAt : τ → Option Bytes) (id : TileId) (tile : τ)
    (rest : List (TileId × τ)) :
    versionsAmong hilbert bytesAt ((id, tile) :: rest) =
      (if id.hilbertPrefix = hilbert then
        ((bytesAt tile).map fun bytes => (id, bytes)).toList else []) ++
        versionsAmong hilbert bytesAt rest := by
  by_cases hpre : id.hilbertPrefix = hilbert
  · cases hbytes : bytesAt tile <;> simp [versionsAmong, hpre, hbytes]
  · simp [versionsAmong, hpre]

theorem filterMap_upTo (bytesAt : τ → Option Bytes) (tiles : List (TileId × τ)) (systemAsOf : Int) :
    ((tiles.filter fun tile => decide (tile.1.hilbertPrefix = hilbert ∧
      tile.1.systemFromMs ≤ systemAsOf)).reverse.filterMap fun tile =>
        (bytesAt tile.2).map fun bytes => (tile.1, bytes)) =
      ((versionsAmong hilbert bytesAt tiles).filter fun version =>
        decide (version.1.systemFromMs ≤ systemAsOf)).reverse := by
  rw [filterMap_reverse, versionsAmong, filter_filterMap, filterMap_filter, filterMap_filter]
  congr 2
  funext tile
  by_cases hpre : tile.1.hilbertPrefix = hilbert
  · by_cases htime : tile.1.systemFromMs ≤ systemAsOf
    · cases bytesAt tile.2 <;> simp [hpre, htime, Option.filter]
    · cases bytesAt tile.2 <;> simp [hpre, htime, Option.filter]
  · simp [hpre]

theorem Segment.iterTileVersions_eq (h : Ascending segment) (systemAsOf : Int) :
    Segment.iterTileVersions segment hilbert systemAsOf =
      (segment.filter fun tile => decide (tile.1.hilbertPrefix = hilbert ∧
        tile.1.systemFromMs ≤ systemAsOf)).reverse := by
  have hbelow : segment.Pairwise fun one other =>
      decide (other.1.hilbertPrefix < hilbert) = true →
        decide (one.1.hilbertPrefix < hilbert) = true := by
    refine h.imp fun hlt => ?_
    have := TileId.compare_lt.mp hlt
    simp only [decide_eq_true_eq]
    omega
  have hupTo : segment.Pairwise fun one other =>
      decide (other.1.hilbertPrefix ≤ hilbert) = true →
        decide (one.1.hilbertPrefix ≤ hilbert) = true := by
    refine h.imp fun hlt => ?_
    have := TileId.compare_lt.mp hlt
    simp only [decide_eq_true_eq]
    omega
  have hofPrefix : (segment.dropWhile fun tile => decide (tile.1.hilbertPrefix < hilbert)).takeWhile
      (fun tile => decide (tile.1.hilbertPrefix ≤ hilbert)) =
        segment.filter fun tile => decide (tile.1.hilbertPrefix = hilbert) := by
    rw [dropWhile_eq_filter hbelow, takeWhile_eq_filter (hupTo.filter _), filter_filter]
    refine filter_congr fun tile _ => ?_
    rw [← decide_not, ← Bool.decide_and, decide_eq_decide]
    omega
  have htimes : (segment.filter fun tile => decide (tile.1.hilbertPrefix = hilbert)).Pairwise
      fun one other => decide (other.1.systemFromMs ≤ systemAsOf) = true →
        decide (one.1.systemFromMs ≤ systemAsOf) = true := by
    rw [pairwise_filter]
    refine h.imp fun hlt hone hother => ?_
    have := TileId.compare_lt.mp hlt
    simp only [decide_eq_true_eq] at hone hother ⊢
    omega
  simp only [Segment.iterTileVersions]
  rw [hofPrefix, takeWhile_eq_filter htimes, filter_filter]
  congr 1
  refine filter_congr fun tile _ => ?_
  rw [← Bool.decide_and, decide_eq_decide, and_comm]

variable (codec coord) in
def Segment.Readable (segment : Segment ν) : Prop :=
  ∀ tile ∈ segment, ∃ bytes, extractCellBytes codec tile.2 coord = .ok bytes

variable (hilbert) in
theorem segmentVersions_eq (h : Ascending segment)
    (hread : Segment.Readable codec coord segment) (systemAsOf : Int) :
    segmentVersions codec hilbert coord systemAsOf segment =
      .ok ((Segment.versions codec hilbert coord segment).filter fun version =>
        decide (version.1.systemFromMs ≤ systemAsOf)).reverse := by
  have hfound : ((Segment.iterTileVersions segment hilbert systemAsOf).mapM fun tile => do
      let bytes ← extractCellBytes codec tile.2 coord
      return bytes.map fun bytes => (tile.1, bytes)) =
        .ok ((Segment.iterTileVersions segment hilbert systemAsOf).map fun tile =>
          (SparseTile.bytesAt codec coord tile.2).map fun bytes => (tile.1, bytes)) := by
    refine mapM_of_forall _ fun tile htile => ?_
    rw [Segment.iterTileVersions_eq h, mem_reverse] at htile
    obtain ⟨bytes, hbytes⟩ := hread tile (mem_filter.mp htile).1
    simp only [SparseTile.bytesAt, hbytes, ok_bind]
    rfl
  have hreduce : ∀ tiles : List (Option (TileId × Bytes)),
      tiles.reduceOption = tiles.filterMap id := fun _ => rfl
  rw [segmentVersions, hfound, ok_bind, hreduce, filterMap_map,
    Segment.iterTileVersions_eq h, Segment.versions, ← filterMap_upTo]
  rfl

/-! ## What a read sees -/

theorem insertionSort_eq_reverse {versions found : List (TileId × Bytes)}
    (hversions : versions.Pairwise fun one other => one.1.systemFromMs < other.1.systemFromMs)
    (hfound : found.Perm versions) :
    (found.insertionSort fun one other => other.1.systemFromMs ≤ one.1.systemFromMs) =
      versions.reverse := by
  have : Std.Total fun one other : TileId × Bytes =>
      other.1.systemFromMs ≤ one.1.systemFromMs := ⟨fun one other => Int.le_total _ _⟩
  have : IsTrans (TileId × Bytes) fun one other => other.1.systemFromMs ≤ one.1.systemFromMs :=
    ⟨fun _ _ _ hone hother => Int.le_trans hother hone⟩
  have hperm := (perm_insertionSort (fun one other : TileId × Bytes =>
    other.1.systemFromMs ≤ one.1.systemFromMs) found).trans hfound
  have hdistinct : versions.Pairwise fun one other =>
      one.1.systemFromMs ≠ other.1.systemFromMs := hversions.imp fun h => h.ne
  have hsorted := (pairwise_insertionSort (fun one other : TileId × Bytes =>
    other.1.systemFromMs ≤ one.1.systemFromMs) found).and
      ((hperm.pairwise_iff fun h => h.symm).mpr hdistinct)
  have hstrict : (found.insertionSort fun one other =>
      other.1.systemFromMs ≤ one.1.systemFromMs).Pairwise fun one other =>
        other.1.systemFromMs < one.1.systemFromMs := by
    refine hsorted.imp fun {one other} h => ?_
    obtain ⟨hle, hne⟩ := h
    omega
  refine List.Perm.eq_of_pairwise (fun one other _ _ hone hother => ?_) hstrict
    (pairwise_reverse.mpr hversions) (hperm.trans versions.reverse_perm.symm)
  omega

theorem cellVersionsForCoord_eq (hsegments : ∀ segment ∈ store.segments,
      Ascending segment ∧ Segment.Readable codec coord segment)
    (hflushed : (store.flushed codec hilbert coord).Pairwise fun one other =>
      one.1.systemFromMs < other.1.systemFromMs)
    (shuffle : Shuffle (Segment ν)) (systemAsOf : Int) :
    cellVersionsForCoord codec shuffle store hilbert coord systemAsOf =
      .ok ((store.held codec hilbert coord).filter fun version =>
        decide (version.1.systemFromMs ≤ systemAsOf)).reverse := by
  have hmem : ∀ segment ∈ shuffle.order store.segments, segment ∈ store.segments :=
    fun segment => (shuffle.perm store.segments).mem_iff.mp
  have hfound := mapM_of_forall (shuffle.order store.segments) fun segment hsegment =>
    segmentVersions_eq hilbert (hsegments segment (hmem segment hsegment)).1
      (hsegments segment (hmem segment hsegment)).2 systemAsOf
  have hperm : ((shuffle.order store.segments).map fun segment =>
      ((Segment.versions codec hilbert coord segment).filter fun version =>
        decide (version.1.systemFromMs ≤ systemAsOf)).reverse).flatten.Perm
      ((store.flushed codec hilbert coord).filter fun version =>
        decide (version.1.systemFromMs ≤ systemAsOf)) := by
    rw [← flatMap_def, flushed, filter_flatMap]
    exact ((shuffle.perm store.segments).flatMap_right _).trans
      (List.Perm.flatMap_left _ fun segment _ => reverse_perm _)
  rw [cellVersionsForCoord, hfound, ok_bind, insertionSort_eq_reverse (hflushed.filter _) hperm,
    held, filter_append, reverse_append, Memtable.versions, ← filterMap_upTo]
  rfl

/-! ## Flushing keeps the versions -/

theorem TileBuffer.getCellBytes_of_size {buffer : TileBuffer} (h : buffer.entries.size = 0)
    (coord : Coord) : buffer.getCellBytes codec coord = none := by
  unfold TileBuffer.getCellBytes
  split
  · exact TreeMap.getElem?_of_isEmpty (by simpa [TreeMap.isEmpty_eq_size_eq_zero] using h)
  · rfl

theorem buildSegment_ids {tiles : List (TileId × TileBuffer)}
    (hbuild : buildSegmentFromMemtable schema codec shuffle tiles = .ok segment) :
    (segment.map Prod.fst).Sublist (tiles.map Prod.fst) := by
  induction tiles generalizing segment with
  | nil =>
    obtain rfl := Except.ok.inj hbuild
    exact List.Sublist.refl _
  | cons head rest ih =>
    obtain ⟨tileId, buffer⟩ := head
    rw [buildSegmentFromMemtable] at hbuild
    split at hbuild
    · exact (ih hbuild).cons _
    · simp only [bind_eq_ok] at hbuild
      obtain ⟨tile, -, later, hlater, hsegment⟩ := hbuild
      obtain rfl := Except.ok.inj hsegment
      exact (ih hlater).cons_cons _

variable (hilbert) in
theorem buildSegment_versions {tiles : List (TileId × TileBuffer)}
    (hsound : ∀ tile ∈ tiles, tile.2.Sound codec)
    (hbuild : buildSegmentFromMemtable schema codec shuffle tiles = .ok segment)
    (hcoord : Plain coord) (hlength : coord.length = schema.arity) :
    Segment.Readable codec coord segment ∧
      Segment.versions codec hilbert coord segment =
        versionsAmong hilbert (TileBuffer.getCellBytes codec · coord) tiles := by
  induction tiles generalizing segment with
  | nil =>
    obtain rfl := Except.ok.inj hbuild
    exact ⟨fun tile htile => absurd htile not_mem_nil, rfl⟩
  | cons head rest ih =>
    obtain ⟨tileId, buffer⟩ := head
    obtain ⟨hbuffer, hrest⟩ := forall_mem_cons.mp hsound
    rw [buildSegmentFromMemtable] at hbuild
    split at hbuild
    · rename_i hsize
      obtain ⟨hread, hversions⟩ := ih hrest hbuild
      refine ⟨hread, ?_⟩
      rw [hversions, versionsAmong_cons, TileBuffer.getCellBytes_of_size hsize, Option.map_none,
        Option.toList_none, ite_self, nil_append]
    · simp only [bind_eq_ok] at hbuild
      obtain ⟨tile, htile, later, hlater, hsegment⟩ := hbuild
      obtain rfl := Except.ok.inj hsegment
      obtain ⟨hread, hversions⟩ := ih hrest hlater
      have hextract := TileBuffer.extract_materialise hbuffer htile hcoord hlength
      refine ⟨forall_mem_cons.mpr ⟨⟨_, hextract⟩, hread⟩, ?_⟩
      rw [Segment.versions] at hversions ⊢
      rw [versionsAmong_cons, versionsAmong_cons, hversions, SparseTile.bytesAt, hextract]

variable (codec) in
/-- What holds of every store: buffers hold cells, and segments are ordered and readable. -/
structure ArrayStore.Kept (schema : ArraySchema) (store : ArrayStore ν) : Prop where
  sound : ∀ tile ∈ store.memtable.toList, tile.2.Sound codec
  ascending : ∀ segment ∈ store.segments, Ascending segment
  readable : ∀ segment ∈ store.segments, ∀ coord, Plain coord → coord.length = schema.arity →
    Segment.Readable codec coord segment

variable (codec) in
theorem ArrayStore.flush_cases (schema : ArraySchema) (shuffle : TileId → Shuffle (Bytes × Bytes))
    (store : ArrayStore ν) :
    store.flush schema codec shuffle = store ∨
      ∃ segment, buildSegmentFromMemtable schema codec shuffle store.memtable.toList =
        .ok segment ∧ store.flush schema codec shuffle =
          { memtable := ∅
            segments := store.segments ++ [segment] } := by
  unfold flush
  split
  · exact Or.inl rfl
  · split
    · rename_i segment hbuild
      exact Or.inr ⟨segment, hbuild, rfl⟩
    · exact Or.inl rfl

theorem ArrayStore.Kept.flush
    (h : store.Kept codec schema) (shuffle : TileId → Shuffle (Bytes × Bytes)) :
    (store.flush schema codec shuffle).Kept codec schema := by
  obtain hsame | ⟨segment, hbuild, hflush⟩ := store.flush_cases codec schema shuffle
  · rwa [hsame]
  · rw [hflush]
    refine ⟨by simp, ?_, ?_⟩
    · intro other hother
      obtain hold | hnew := mem_append.mp hother
      · exact h.ascending other hold
      · obtain rfl := mem_singleton.mp hnew
        have hids : (store.memtable.toList.map Prod.fst).Pairwise fun one other =>
            compare one other = .lt := pairwise_map.mpr TreeMap.ordered_keys_toList
        exact pairwise_map.mp (hids.sublist (buildSegment_ids hbuild))
    · intro other hother coord hcoord hlength
      obtain hold | hnew := mem_append.mp hother
      · exact h.readable other hold coord hcoord hlength
      · obtain rfl := mem_singleton.mp hnew
        exact (buildSegment_versions 0 h.sound hbuild hcoord hlength).1

theorem ArrayStore.Kept.held_flush
    (h : store.Kept codec schema) (shuffle : TileId → Shuffle (Bytes × Bytes))
    (hcoord : Plain coord) (hlength : coord.length = schema.arity) :
    (store.flush schema codec shuffle).held codec hilbert coord =
      store.held codec hilbert coord := by
  obtain hsame | ⟨segment, hbuild, hflush⟩ := store.flush_cases codec schema shuffle
  · rw [hsame]
  · have hversions := (buildSegment_versions hilbert h.sound hbuild hcoord hlength).2
    rw [hflush]
    simp only [held, flushed, flatMap_append, flatMap_cons,
      flatMap_nil, append_nil, hversions, Memtable.versions]
    simp [versionsAmong]

end Versions

end NodeDB.ArrayEngine
